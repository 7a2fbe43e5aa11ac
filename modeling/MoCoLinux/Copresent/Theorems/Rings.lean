import MoCoLinux.Copresent.Broker
import MoCoLinux.Copresent.Lemmas.Host

/-!
# The broker's lists and the slots of its channel

`Copresent.Broker` has the two rings as lists. A list stands for the records between the counters of a ring, and each
store of a counter does to the ring what the broker's step does to its list.
-/

namespace MoCoLinux.Copresent

open Threads (Config)

variable {g : Pages} {generation head tail : Nat} {c : Channel} {s : Broker} {r : Record}

/-- The records of a ring with these counters and slots. -/
structure Shows (g : Pages) (mem : Nat → Nat) (d : Dir) (head tail : Nat) (records : List Record) : Prop where
  count : u32Sub head tail = records.length
  fits : records.length ≤ ringSlots
  empty : head = tail ↔ records = []
  slots : ∀ k r, records[k]? = some r → Filled g mem d (tail + k) r 16

theorem Holds.shows {mem : Nat → Nat} {d : Dir} {into out : List Record} (h : Holds g mem d head tail into out) :
    Shows g mem d head tail (into.drop out.length) := by
  have hle := h.out_le
  have hfits := h.fits
  have hcount : u32Sub head tail = (into.drop out.length).length := by
    rw [h.head, h.tail, List.length_drop]
    exact Ring.index_sub hle (by simp only [ringSlots] at hfits; omega)
  refine ⟨hcount, by rw [List.length_drop]; omega, ?_, fun k r hr w hw => ?_⟩
  · rw [← List.length_eq_zero_iff, ← hcount, h.head, h.tail]
    simp only [u32Sub, u32]
    omega
  · rw [List.getElem?_drop] at hr
    have hslot : slotOffset d (tail + k) = slotOffset d (out.length + k) := by
      rw [h.tail, ← slotOffset_u32, ← slotOffset_u32 d (out.length + k), u32, u32, u32, Nat.mod_add_mod]
    rw [Pages.cell, hslot]
    exact h.slots _ r (by omega) hr w hw

/-- The lists of the broker are what is between the counters of the channel. -/
structure Follows (c : Channel) (s : Broker) : Prop where
  tx : s.tx.map Entry.record = c.written.drop c.handled.length
  rx : s.rx.map Entry.record = c.answers.drop c.consumed.length

/-- In every run of the channel the slots hold the broker's lists, and the code's tests for a full and for an empty
ring are those on the lists. -/
theorem lists_shown {cfg : Config Channel Party} (h : Reachable g generation cfg) (hs : Follows cfg.shared s) :
    Shows g cfg.shared.mem .tx cfg.shared.txHead cfg.shared.txTail (s.tx.map Entry.record) ∧
      Shows g cfg.shared.mem .rx cfg.shared.rxHead cfg.shared.rxTail (s.rx.map Entry.record) := by
  have hinv := ((sound g generation).reach h).shared
  rw [hs.tx, hs.rx]
  exact ⟨hinv.tx.shows, hinv.rx.shows⟩

namespace Follows

theorem start (hc : Start c) (hs : Broker.Start s) : Follows c s := by
  obtain ⟨hwritten, -, hanswers, -⟩ := hc.history
  obtain ⟨htx, -, hrx, -⟩ := hs.rings
  exact ⟨by simp [htx, hwritten], by simp [hrx, hanswers]⟩

theorem publish (h : Follows c s) (hi : Inv g generation c) (i : Nat) (e : Entry) :
    Follows (c.publish head e.record) (s.publish i e) := by
  refine ⟨?_, h.rx⟩
  show (s.tx ++ [e]).map Entry.record = (c.written ++ [e.record]).drop c.handled.length
  rw [List.drop_append_of_le_length hi.tx.out_le, List.map_append, h.tx]
  rfl

theorem respond (h : Follows c s) (hi : Inv g generation c) (e : Entry) :
    Follows (c.respond head e.record) { s with rx := s.rx ++ [e], serving := none } := by
  refine ⟨h.tx, ?_⟩
  show (s.rx ++ [e]).map Entry.record = (c.answers ++ [e.record]).drop c.consumed.length
  rw [List.drop_append_of_le_length hi.rx.out_le, List.map_append, h.rx]
  rfl

/-- What is taken from a ring is the first record of the list. -/
theorem first {entries : List Entry} {into out : List Record}
    (h : entries.map Entry.record = into.drop out.length) (hr : out ++ [r] <+: into) :
    ∃ e rest, entries = e :: rest ∧ e.record = r ∧ rest.map Entry.record = into.drop (out ++ [r]).length := by
  obtain ⟨rest, rfl⟩ := hr
  rw [List.append_assoc, List.drop_left, List.singleton_append] at h
  obtain ⟨e, es, rfl, he, hes⟩ := List.map_eq_cons_iff.mp h
  exact ⟨e, es, rfl, he, by rw [List.drop_left, hes]⟩

theorem take (h : Follows c s) (hi : Inv g generation (c.take tail r)) : ∃ e rest, s.tx = e :: rest ∧ e.record = r ∧
    Follows (c.take tail r) { s with tx := rest, serving := some e } := by
  obtain ⟨e, rest, htx, he, hrest⟩ := first h.tx hi.tx.order
  exact ⟨e, rest, htx, he, hrest, h.rx⟩

theorem consume (h : Follows c s) (hi : Inv g generation (c.consume tail r)) : ∃ e rest, s.rx = e :: rest ∧
    e.record = r ∧ Follows (c.consume tail r) { s with rx := rest, hand := some e } := by
  obtain ⟨e, rest, hrx, he, hrest⟩ := first h.rx hi.rx.order
  exact ⟨e, rest, hrx, he, h.tx, hrest⟩

end Follows

end MoCoLinux.Copresent
