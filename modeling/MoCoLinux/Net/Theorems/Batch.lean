import MoCoLinux.Net.Lemmas.Batch

/-!
# The batch is a queue

Over any run of the bridge, what the driver took followed by what the batch still holds is what slirp put out,
up to the frames that found no room after a flush.
-/

namespace MoCoLinux.Net.BatchRun

open Batch

variable {s s' : BatchRun} {op : BatchOp} {answer : Answer} {frames : List Frame}

structure Queue (s : BatchRun) (frames : List Frame) : Prop where
  holds : s.batch.Holds frames
  order : s.accepted ++ frames = s.kept

theorem kept_append (s : BatchRun) (b : Batch) (accepted : List Frame) (frame : Frame) (full : Bool) :
    kept ⟨b, accepted, s.outputs ++ [(frame, full)]⟩ = s.kept ++ if full then [] else [frame] := by
  cases full <;> simp [kept]

theorem Queue.start (h : Start s) : s.Queue [] := by
  obtain ⟨hused, hframes, hacc, hout⟩ := h
  refine ⟨⟨?_, hframes.symm, by rw [hused]; exact Nat.zero_le _⟩, by simp [kept, hacc, hout]⟩
  have hbytes : s.batch.bytes = [] := List.eq_nil_of_length_eq_zero (by simpa [bytes] using hused)
  rw [hbytes]
  exact .nil

theorem Queue.makeRoom (h : s.Queue frames) (hfair : Fair answer s.batch) (record : Nat) :
    ∃ rest, (s.batch.makeRoom answer record).Holds rest ∧
      (if s.batch.noRoom record then s.accepted ++ takes answer s.batch else s.accepted) ++ rest = s.kept := by
  unfold Batch.makeRoom
  split
  · obtain ⟨rest, hrest, hsplit⟩ := h.holds.flush_split hfair
    exact ⟨rest, hrest, by rw [List.append_assoc, hsplit, h.order]⟩
  · exact ⟨frames, h.holds, h.order⟩

theorem Queue.step (h : s.Queue frames) (hs : Step s op s') : ∃ frames', s'.Queue frames' := by
  cases hs with
  | output answer pkt pktLen hfair hlegal =>
    obtain ⟨rest, hrest, horder⟩ := h.makeRoom hfair (recordBytes (packet pkt pktLen).length)
    cases hroom : (s.batch.makeRoom answer (recordBytes (packet pkt pktLen).length)).noRoom
        (recordBytes (packet pkt pktLen).length) with
    | true =>
      refine ⟨rest, ?_, ?_⟩
      · rw [output_of_noRoom hlegal hroom]
        exact { hrest with }
      · rw [kept_append, if_pos rfl, List.append_nil]
        exact horder
    | false =>
      refine ⟨rest ++ [packet pkt pktLen], Holds.output_of_room hlegal hrest hroom, ?_⟩
      rw [kept_append, ← horder, ← List.append_assoc]
      rfl
  | illegal answer pkt pktLen hill =>
    rw [output_of_illegal hill]
    exact ⟨frames, h⟩
  | flush answer hfair =>
    obtain ⟨rest, hrest, hsplit⟩ := h.holds.flush_split hfair
    exact ⟨rest, hrest, by rw [List.append_assoc, hsplit]; exact h.order⟩
  | turn => exact ⟨frames, ⟨h.holds.records, h.holds.count, h.holds.fits⟩, h.order⟩

theorem Reachable.queue (h : Reachable s) : ∃ frames, s.Queue frames :=
  Runs.Reach.invariant (P := fun s => ∃ frames, s.Queue frames) (fun _ hs => ⟨[], Queue.start hs⟩)
    (fun _ _ _ ⟨_, hq⟩ hs => hq.step hs) h

theorem Step.kept_output {pkt : Nat → UInt8} {pktLen : Int32} (hs : Step s (.output answer pkt pktLen) s')
    (hlegal : LegalSize pktLen) : s'.kept = s.kept ++ [packet pkt pktLen] ∨
      s'.kept = s.kept ∧ (s.batch.makeRoom answer (recordBytes (packet pkt pktLen).length)).noRoom
        (recordBytes (packet pkt pktLen).length) = true ∧ s'.batch.rxFull = true := by
  cases hs with
  | output _ _ _ hfair _ =>
    cases hroom : (s.batch.makeRoom answer (recordBytes (packet pkt pktLen).length)).noRoom
        (recordBytes (packet pkt pktLen).length) with
    | true =>
      refine .inr ⟨?_, rfl, by rw [output_of_noRoom hlegal hroom]⟩
      rw [kept_append, if_pos rfl, List.append_nil]
    | false =>
      rw [kept_append]
      exact .inl rfl
  | illegal _ _ _ hill => exact absurd hlegal hill

/-- In every reached state `ring_batch` holds `ring_batch_frames` records in `ring_batch_used` bytes, which continue
what the driver accepted of slirp's packets, in order. A packet of legal size is missing only when there was no room
after a flush, and then `ring_rx_full` is set. -/
theorem batch_is_queue (s : BatchRun) (h : Reachable s) :
    (∃ frames, Records s.batch.bytes frames ∧ frames.length = s.batch.frames ∧
      recordsBytes frames = s.batch.used ∧ s.batch.used ≤ batchSize ∧ s.accepted ++ frames = s.kept) ∧
    ∀ answer pkt pktLen s', LegalSize pktLen → Step s (.output answer pkt pktLen) s' →
      s'.kept = s.kept ++ [packet pkt pktLen] ∨
      s'.kept = s.kept ∧ (s.batch.makeRoom answer (recordBytes (packet pkt pktLen).length)).noRoom
        (recordBytes (packet pkt pktLen).length) = true ∧ s'.batch.rxFull = true := by
  obtain ⟨frames, hq⟩ := h.queue
  exact ⟨⟨frames, hq.holds.records, hq.holds.count, hq.holds.used_eq.symm, hq.holds.fits, hq.order⟩,
    fun _ _ _ _ hlegal hs => hs.kept_output hlegal⟩

/-- Two packets of which the driver takes one. -/
theorem batch_is_queue_partly_taken : ∃ s, Reachable s ∧ s.kept = [[7], [7, 7]] ∧ s.accepted = [[7]] ∧
    s.batch.frames = 1 ∧ ∃ frames, Records s.batch.bytes frames ∧ s.accepted ++ frames = s.kept := by
  have h₀ : Reachable ⟨⟨fun _ => 0, 0, 0, false⟩, [], []⟩ := .start ⟨rfl, rfl, rfl, rfl⟩
  have h₁ := h₀.next (.output ⟨.ok, 0⟩ (fun _ => 7) 1 (by decide) (by decide))
  have h₂ := h₁.next (.output ⟨.ok, 0⟩ (fun _ => 7) 2 (by decide) (by decide))
  have h₃ := h₂.next (.flush ⟨.ok, 1⟩ (by decide))
  obtain ⟨⟨frames, hrecords, -, -, -, horder⟩, -⟩ := batch_is_queue _ h₃
  exact ⟨_, h₃, by decide, by decide, by decide, frames, hrecords, horder⟩

end MoCoLinux.Net.BatchRun
