import MoCoLinux.Cobd.Lemmas.Async

/-!
# The block workers: the vCPUs
-/

namespace MoCoLinux.Cobd.Async

open Function
open Threads (Prog)
open Threads.Prog (Safe)

variable {s s' : Async} {n node : Nat} {r : Request}

abbrev VcpuSafe {α : Type} (n : Nat) (Q : α → Async → Prop) (p : Prog Async α) (s : Async) : Prop :=
  p.Safe Inv (contract (.vcpu n)) (fun _ _ => True) Q s

structure Inside (n : Nat) (signal : Option Nat) (s : Async) : Prop where
  inCall : s.inCall.count n = 1
  signaller : s.signaller n = signal

theorem Inside.stable {signal : Option Nat} (h : Inside n signal s) (hr : VcpuRely n s s') : Inside n signal s' :=
  ⟨hr.inCall.trans h.inCall, hr.signaller.trans h.signaller⟩

theorem Inside.running {signal : Option Nat} (h : Inside n signal s) (hinv : s.Inv) : s.phase = .running := by
  refine hinv.calls fun hnil => ?_
  have hcount := h.inCall
  rw [hnil] at hcount
  cases hcount

theorem Lists.append (h : Lists s) (hu : r.unit.toNat < maxUnits) (hf : s.freeList = some node) :
    Lists (s.append n r node) := by
  obtain ⟨hfree, htail, hqueues, -⟩ := h.free_head hf
  have hlast : ∀ b, s.fifoTail r.unit.toNat = some b → b ∈ s.queue r.unit.toNat := by
    intro b hb
    rw [(h.queue _ hu).last] at hb
    exact List.mem_of_getLast? hb
  refine ⟨?_, fun v hv => ?_, ?_, fun v hv => ?_⟩
  · have hchain := h.free
    rw [hf] at hchain
    refine (hchain.eq_cons.2.update htail none).link fun b hb hm => ?_
    refine h.queue_free hu (hlast b hb) ?_
    rw [hfree]
    exact List.mem_cons_of_mem node hm
  · by_cases hvu : v = r.unit.toNat
    · subst hvu
      simp only [Async.append, update_self]
      exact (h.queue _ hv).enqueue (h.queue_nodup hv) (hqueues _ hv)
    · simp only [Async.append, update_of_ne hvu]
      refine ((h.queue v hv).update (hqueues v hv) none).link fun b hb => ?_
      exact h.queue_disjoint hu hv hvu (hlast b hb)
  · refine List.perm_iff_count.mpr fun a => ?_
    have hcount := h.count a
    have hupd := LinkedList.count_flatMap_update (List.nodup_range (n := maxUnits)) (List.mem_range.mpr hu)
      s.queue (s.queue r.unit.toNat ++ [node]) a
    have hsplit : s.free.count a = [node].count a + s.free.tail.count a := by
      rw [hfree, List.tail_cons, ← List.singleton_append, List.count_append]
    rw [List.count_append] at hupd
    rw [List.count_append, List.count_append]
    simp only [Async.append]
    omega
  · have hreq : ∀ w < maxUnits, (s.queue w).map (update s.req node r) = (s.queue w).map s.req := by
      intro w hw
      refine List.map_congr_left fun a ha => update_of_ne ?_ _ _
      rintro rfl
      exact hqueues w hw ha
    by_cases hvu : v = r.unit.toNat
    · subst hvu
      simp only [Async.append, update_self, List.map_append, List.map_cons, List.map_nil]
      rw [h.accepted _ hv, hreq _ hv, List.append_assoc]
    · simp only [Async.append, update_of_ne hvu]
      rw [h.accepted v hv, hreq v hv]

theorem append_guar (h : Inside n none s) (hinv : s.Inv) (hu : r.unit.toNat < maxUnits)
    (hf : s.freeList = some node) : VcpuGuar n s (s.append n r node) := by
  have hrun := h.running hinv
  have hlists := hinv.lists (hinv.running hrun)
  obtain ⟨-, -, -, hheld⟩ := hlists.free_head hf
  have hsame : ∀ v < maxUnits, SameUnit v s (s.append n r node) := by
    refine fun v hv => ⟨rfl, fun k hk => update_of_ne ?_ _ _, rfl, rfl, rfl, rfl⟩
    rintro rfl
    exact hheld v hv hk
  have hother : ∀ v, v ≠ r.unit.toNat → Quiet v s (s.append n r node) := fun v hv =>
    ⟨update_of_ne hv _ _, update_of_ne hv _ _, update_of_ne hv _ _⟩
  have hlate : (s.append n r node).late r.unit.toNat = true := update_self ..
  refine ⟨⟨fun _ => hlists.append hu hf, hinv.count, hinv.alive, hinv.calls, hinv.running, fun v hs hq => ?_,
    fun v => ?_, fun v hv ha => ?_, fun hp => ?_⟩, ⟨rfl, rfl, rfl⟩, rfl, hsame, fun v hl => ?_, fun _ _ => rfl,
    fun m hm => update_of_ne hm _ _, fun hp => absurd hrun hp⟩
  · by_cases hvu : v = r.unit.toNat
    · rw [hvu]
      exact .inr ⟨n, update_self ..⟩
    · rw [(hother v hvu).queue] at hq
      rcases hinv.wake v hs hq with hw | ⟨m, hm⟩
      · exact .inl hw
      · have hmn : m ≠ n := by
          rintro rfl
          rw [h.signaller] at hm
          cases hm
        exact .inr ⟨m, (update_of_ne hmn _ _).trans hm⟩
  · have hold := hinv.ordered v
    refine ⟨hold.completed, hold.transferred, hold.popped.trans ?_⟩
    by_cases hvu : v = r.unit.toNat
    · subst hvu
      simp only [Async.append, update_self]
      exact List.prefix_append _ _
    · exact ⟨[], by rw [List.append_nil, (hother v hvu).accepted]⟩
  · obtain ⟨hrested, hempty⟩ := hinv.gone v hv ha
    refine ⟨(hsame v (Nat.lt_of_lt_of_le hv hinv.count)).rested hrested, fun hl => ?_⟩
    by_cases hvu : v = r.unit.toNat
    · rw [hvu, hlate] at hl
      cases hl
    · rw [(hother v hvu).queue]
      exact hempty ((hother v hvu).late.symm.trans hl)
  · have hp : s.phase = .stopped := hp
    rw [hrun] at hp
    cases hp
  · by_cases hvu : v = r.unit.toNat
    · rw [hvu, hlate] at hl
      cases hl
    · exact ⟨(hother v hvu).late.symm.trans hl, (hother v hvu).queue⟩

theorem enqueue_safe (hu : r.unit.toNat < maxUnits) (h : Inside n none s) :
    VcpuSafe n (fun ok => Inside n (if ok then some r.unit.toNat else none)) (enqueue n r) s := by
  refine Safe.act (Safe.stays Inside.stable) (fun s ok t h hinv hf _ => ?_) h
  cases hfree : s.freeList with
  | none =>
    rw [hfree] at hf
    cases hf
    exact ⟨(lawful (.vcpu n)).still hinv, Safe.done Inside.stable h⟩
  | some node =>
    rw [hfree] at hf
    cases hf
    refine ⟨append_guar h hinv hu hfree, Safe.done Inside.stable ⟨h.inCall, update_self ..⟩⟩

theorem wakeup_safe {u : Nat} (h : Inside n (some u) s) : VcpuSafe n (fun _ => Inside n none) (wakeup n u) s := by
  refine Safe.writeLast (Safe.stays Inside.stable) (fun s h hinv _ => ⟨?_, ?_⟩) h
  · have hrun := h.running hinv
    refine ⟨⟨fun hb => (hinv.lists hb).congr ⟨rfl, rfl, rfl, rfl, rfl, rfl, rfl, rfl, rfl⟩ rfl, hinv.count, hinv.alive,
      hinv.calls, hinv.running, fun v hs hq => ?_, fun v => ?_, fun v hv ha => ?_, fun hp => ?_⟩, ⟨rfl, rfl, rfl⟩, rfl,
      fun v _ => ⟨rfl, fun _ _ => rfl, rfl, rfl, rfl, rfl⟩, fun _ hl => ⟨hl, rfl⟩, fun _ _ => rfl,
      fun m hm => update_of_ne hm _ _, fun hp => absurd hrun hp⟩
    · by_cases hvu : v = u
      · rw [hvu]
        exact .inl (update_self ..)
      · rcases hinv.wake v hs hq with hw | ⟨m, hm⟩
        · exact .inl ((update_of_ne hvu _ _).trans hw)
        · have hmn : m ≠ n := by
            rintro rfl
            rw [h.signaller, Option.some.injEq] at hm
            exact hvu hm.symm
          exact .inr ⟨m, (update_of_ne hmn _ _).trans hm⟩
    · have hold := hinv.ordered v
      exact { hold with }
    · obtain ⟨hrested, hempty⟩ := hinv.gone v hv ha
      exact ⟨{ hrested with }, hempty⟩
    · have hp : s.phase = .stopped := hp
      rw [hrun] at hp
      cases hp
  · exact fun t ht _ => ⟨ht.inCall.trans h.inCall, ht.signaller.trans (update_self ..)⟩

theorem submit_safe (hinv : s.Inv) (h : Inside n none s) : VcpuSafe n (fun _ => Inside n none) (submit n r) s := by
  unfold submit
  split
  · exact Safe.done Inside.stable h
  · rename_i hunit
    have hu : r.unit.toNat < maxUnits := by
      have hmax : maxUnits = 4 := rfl
      omega
    refine Safe.bind (lawful (.vcpu n)) hinv ((enqueue_safe hu h).mono fun ok s _ h => ?_)
    cases ok with
    | false => exact Safe.done Inside.stable h
    | true => exact wakeup_safe h

theorem Inv.inCall {calls : List Nat} (hinv : s.Inv) (h : calls ≠ [] → s.phase = .running) :
    Inv { s with inCall := calls } := by
  refine ⟨fun hb => (hinv.lists hb).congr ⟨rfl, rfl, rfl, rfl, rfl, rfl, rfl, rfl, rfl⟩ rfl, hinv.count, hinv.alive,
    h, hinv.running, hinv.wake, fun v => ?_, fun v hv ha => ?_, hinv.stopped⟩
  · have hold := hinv.ordered v
    exact { hold with }
  · obtain ⟨hrested, hempty⟩ := hinv.gone v hv ha
    exact ⟨{ hrested with }, hempty⟩

theorem VcpuGuar.inCall_of {calls : List Nat} (hinv : s.Inv) (h : calls ≠ [] → s.phase = .running)
    (hother : ∀ m, m ≠ n → calls.count m = s.inCall.count m) : VcpuGuar n s { s with inCall := calls } :=
  ⟨hinv.inCall h, ⟨rfl, rfl, rfl⟩, rfl, fun _ _ => ⟨rfl, fun _ _ => rfl, rfl, rfl, rfl, rfl⟩, fun _ hl => ⟨hl, rfl⟩,
    hother, fun _ _ => rfl, fun _ => ⟨⟨rfl, rfl, rfl, rfl, rfl, rfl, rfl, rfl, rfl⟩, fun _ => ⟨rfl, rfl, rfl⟩⟩⟩

theorem vcpu_safe (hidle : s.inCall.count n = 0 ∧ s.signaller n = none) :
    VcpuSafe n (fun _ s => s.inCall.count n = 0 ∧ s.signaller n = none) (vcpu n r) s := by
  refine Safe.await (P := fun s => s.inCall.count n = 0 ∧ s.signaller n = none)
    (fun h hr _ => ⟨hr.inCall.trans h.1, hr.signaller.trans h.2⟩) (fun s h hinv hrun _ => ?_) hidle
  have hrun : s.phase = .running := of_decide_eq_true hrun
  have hguar : VcpuGuar n s { s with inCall := n :: s.inCall } :=
    .inCall_of hinv (fun _ => hrun) fun m hm => List.count_cons_of_ne (Ne.symm hm)
  refine ⟨hguar, Safe.bind (lawful (.vcpu n)) hguar.inv ((submit_safe hguar.inv ?_).mono fun _ s hinv h => ?_)⟩
  · exact ⟨by rw [List.count_cons_self, h.1], h.2⟩
  · refine Safe.writeLast (Safe.stays Inside.stable) (fun s h hinv _ => ⟨?_, ?_⟩) h
    · exact .inCall_of hinv (fun _ => h.running hinv) fun m hm => List.count_erase_of_ne hm
    · intro t ht _
      refine ⟨ht.inCall.trans ?_, ht.signaller.trans h.signaller⟩
      rw [List.count_erase_self, h.inCall]

end MoCoLinux.Cobd.Async
