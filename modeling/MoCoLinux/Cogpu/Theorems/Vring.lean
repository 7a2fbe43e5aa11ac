import MoCoLinux.Cogpu.Vring

/-!
# Accesses to the virtqueues: results
-/

namespace MoCoLinux.Cogpu

variable {q : Queue} {f : Adoption} {vr start : Vring} {view : View} {heads : List Nat} {log : List Access}
  {a : Access}

theorem u16_lt (n : Nat) : u16 n < 2 ^ 16 := Nat.mod_lt _ (by decide)

theorem u16_of_lt {n : Nat} (h : n < 2 ^ 16) : u16 n = n := Nat.mod_eq_of_lt h

theorem mem_descReads {i : Nat} {d : Desc} (h : a ∈ Vring.descReads i d) :
    a.area = .desc ∧ a.offset + a.bytes ≤ 16 * (i + 1) := by
  simp only [Vring.descReads, List.cons_append, List.mem_cons, List.mem_append] at h
  rcases h with rfl | h | rfl | h
  · exact ⟨rfl, by dsimp only; omega⟩
  · split at h
    · cases h
    · simp only [List.mem_cons, List.not_mem_nil, or_false] at h
      rcases h with rfl | rfl
      · exact ⟨rfl, by dsimp only; omega⟩
      · exact ⟨rfl, by dsimp only; omega⟩
  · exact ⟨rfl, by dsimp only; omega⟩
  · split at h
    · cases List.mem_singleton.mp h
      exact ⟨rfl, by dsimp only; omega⟩
    · cases h

theorem mem_walk {num hops i : Nat} {chain : Chain} (hi : i < 2 ^ 16) (h : a ∈ (Vring.walk num view hops i chain).2) :
    a.area = .desc ∧ a.offset + a.bytes ≤ 16 * min num (2 ^ 16) := by
  induction hops generalizing i chain with
  | zero =>
    rw [Vring.walk] at h
    split at h <;> cases h
  | succ hops ih =>
    rw [Vring.walk] at h
    split at h
    · cases h
    · rename_i hnum
      have hread : ∀ d, a ∈ Vring.descReads i d → a.area = .desc ∧ a.offset + a.bytes ≤ 16 * min num (2 ^ 16) := by
        intro d hd
        obtain ⟨harea, hend⟩ := mem_descReads hd
        exact ⟨harea, by omega⟩
      dsimp only at h
      split at h
      · exact hread _ h
      · split at h
        · rcases List.mem_append.mp h with h | h
          · exact hread _ h
          · exact ih (u16_lt _) h
        · exact hread _ h

theorem mem_pop (h : a ∈ (vr.pop view).2) : a = ⟨.avail, 2, 2⟩ ∨ a = ⟨.avail, 4 + 2 * (vr.lastAvail % vr.num), 2⟩ ∨
    a.area = .desc ∧ a.offset + a.bytes ≤ 16 * min vr.num (2 ^ 16) := by
  simp only [Vring.pop] at h
  split at h
  · exact .inl (List.mem_singleton.mp h)
  · split at h
    · exact .inl (List.mem_singleton.mp h)
    · split at h
      · simp only [List.mem_cons, List.not_mem_nil, or_false] at h
        exact h.imp_right .inl
      · simp only [List.cons_append, List.nil_append, List.mem_cons] at h
        exact h.imp_right fun h => h.imp_right fun h => mem_walk (u16_lt _) h

theorem mem_pushWrites (h : a ∈ vr.pushWrites) :
    a.area = .used ∧ a.offset + a.bytes ≤ 4 + 8 * (vr.usedIdx % vr.num + 1) := by
  simp only [Vring.pushWrites, Vring.pushSlot, List.mem_cons, List.not_mem_nil, or_false] at h
  rcases h with rfl | rfl | rfl
  · exact ⟨rfl, by dsimp only; omega⟩
  · exact ⟨rfl, by dsimp only; omega⟩
  · exact ⟨rfl, by dsimp only; omega⟩

theorem mem_resolved {c : Checked} : c ∈ q.resolved ↔ c = ⟨.desc, q.descBytes⟩ ∨ c = ⟨.avail, 8⟩ ∨ c = ⟨.used, 8⟩ := by
  simp [Queue.resolved]

theorem mem_pinned {c : Checked} : c ∈ q.pinned f ↔ f.pinned q.descGpa q.descBytes = true ∧ (c = ⟨.desc, q.descBytes⟩ ∨
    f.pinned q.availGpa q.availBytes = true ∧ (c = ⟨.avail, q.availBytes⟩ ∨
      f.pinned q.usedGpa q.usedBytes = true ∧ c = ⟨.used, q.usedBytes⟩)) := by
  unfold Queue.pinned
  cases f.pinned q.descGpa q.descBytes <;> cases f.pinned q.availGpa q.availBytes <;>
    cases f.pinned q.usedGpa q.usedBytes <;> simp

theorem inside_desc {offset bytes : Nat} : Access.Inside ⟨.desc, offset, bytes⟩ (q.checked f) ↔
    offset + bytes ≤ q.descBytes := by
  simp only [Access.Inside, Queue.checked, List.mem_append, mem_resolved, mem_pinned]
  constructor
  · rintro ⟨c, (rfl | rfl | rfl) | ⟨-, rfl | ⟨-, rfl | ⟨-, rfl⟩⟩⟩, harea, hend⟩ <;> first | exact hend | cases harea
  · exact fun hend => ⟨_, .inl (.inl rfl), rfl, hend⟩

theorem inside_avail {offset bytes : Nat} : Access.Inside ⟨.avail, offset, bytes⟩ (q.checked f) ↔
    offset + bytes ≤ 8 ∨ f.pinned q.descGpa q.descBytes = true ∧ f.pinned q.availGpa q.availBytes = true ∧
      offset + bytes ≤ q.availBytes := by
  simp only [Access.Inside, Queue.checked, List.mem_append, mem_resolved, mem_pinned]
  constructor
  · rintro ⟨c, (rfl | rfl | rfl) | ⟨hd, rfl | ⟨ha, rfl | ⟨-, rfl⟩⟩⟩, harea, hend⟩ <;>
      first | cases harea; done | exact .inl hend | exact .inr ⟨hd, ha, hend⟩
  · rintro (hend | ⟨hd, ha, hend⟩)
    · exact ⟨_, .inl (.inr (.inl rfl)), rfl, hend⟩
    · exact ⟨_, .inr ⟨hd, .inr ⟨ha, .inl rfl⟩⟩, rfl, hend⟩

theorem inside_used {offset bytes : Nat} : Access.Inside ⟨.used, offset, bytes⟩ (q.checked f) ↔
    offset + bytes ≤ 8 ∨ f.pinned q.descGpa q.descBytes = true ∧ f.pinned q.availGpa q.availBytes = true ∧
      f.pinned q.usedGpa q.usedBytes = true ∧ offset + bytes ≤ q.usedBytes := by
  simp only [Access.Inside, Queue.checked, List.mem_append, mem_resolved, mem_pinned]
  constructor
  · rintro ⟨c, (rfl | rfl | rfl) | ⟨hd, rfl | ⟨ha, rfl | ⟨hu, rfl⟩⟩⟩, harea, hend⟩ <;>
      first | cases harea; done | exact .inl hend | exact .inr ⟨hd, ha, hu, hend⟩
  · rintro (hend | ⟨hd, ha, hu, hend⟩)
    · exact ⟨_, .inl (.inr (.inr rfl)), rfl, hend⟩
    · exact ⟨_, .inr ⟨hd, .inr ⟨ha, .inr ⟨hu, rfl⟩⟩⟩, rfl, hend⟩

def Vring.Words (vr : Vring) : Prop := vr.lastAvail < 2 ^ 16 ∧ vr.usedIdx < 2 ^ 16

theorem Vring.afterPop_cases (vr : Vring) (view : View) : vr.afterPop view = vr ∨ vr.afterPop view = vr.popped := by
  rw [Vring.afterPop]
  split
  · exact .inl rfl
  · exact .inr rfl

theorem Vring.Run.words (h : Vring.Run start vr heads log) (hstart : start.Words) : vr.num = start.num ∧ vr.Words := by
  induction h with
  | start => exact ⟨rfl, hstart⟩
  | @pop vr heads log view _ ih =>
    rcases vr.afterPop_cases view with heq | heq <;> rw [heq]
    · exact ih
    · exact ⟨ih.1, u16_lt _, ih.2.2⟩
  | push i _ _ ih => exact ⟨ih.1, ih.2.1, u16_lt _⟩

theorem slot_lt {n num : Nat} (hn : n < 2 ^ 16) (hnum : num ≠ 0) : n % num < min num (2 ^ 16) :=
  Nat.lt_min.mpr ⟨Nat.mod_lt _ (Nat.pos_of_ne_zero hnum), Nat.lt_of_le_of_lt (Nat.mod_le ..) hn⟩

def Vring.slots (vr : Vring) : Nat := min vr.num (2 ^ 16)

theorem Vring.Run.mem_log (h : Vring.Run start vr heads log) (hstart : start.Words) (hnum : start.num ≠ 0) :
    ∀ a ∈ log, a.area = .avail ∧ a.offset + a.bytes ≤ 4 + 2 * start.slots ∨
      a.area = .desc ∧ a.offset + a.bytes ≤ 16 * start.slots ∨
      a.area = .used ∧ a.offset + a.bytes ≤ 4 + 8 * start.slots := by
  induction h with
  | start => simp
  | @pop vr heads log view h ih =>
    obtain ⟨hsame, hwords⟩ := h.words hstart
    have hslot := slot_lt hwords.1 (hsame ▸ hnum)
    intro a ha
    rcases List.mem_append.mp ha with ha | ha
    · exact ih a ha
    · rw [slots, ← hsame]
      rcases mem_pop ha with rfl | rfl | hdesc
      · exact .inl ⟨rfl, by dsimp only; omega⟩
      · exact .inl ⟨rfl, by dsimp only; omega⟩
      · exact .inr (.inl hdesc)
  | @push vr head heads log i h _ ih =>
    obtain ⟨hsame, hwords⟩ := h.words hstart
    have hslot := slot_lt hwords.2 (hsame ▸ hnum)
    intro a ha
    rcases List.mem_append.mp ha with ha | ha
    · exact ih a ha
    · obtain ⟨harea, hend⟩ := mem_pushWrites ha
      rw [slots, ← hsame]
      exact .inr (.inr ⟨harea, by omega⟩)

theorem Vring.pop_negative (hnum : 2 ^ 31 ≤ vr.num) (view : View) : (vr.pop view).1 = none ∧
    ∀ a ∈ (vr.pop view).2, a = ⟨.avail, 2, 2⟩ ∨ a = ⟨.avail, 4 + 2 * (vr.lastAvail % vr.num), 2⟩ := by
  have hwalk : ∀ i chain, walk vr.num view (hopLimit vr.num) i chain = (none, []) := by
    intro i chain
    rw [hopLimit, if_neg (by omega), walk]
    split <;> rfl
  simp only [pop, hwalk]
  split
  · simp
  · split
    · simp
    · split <;> simp

theorem Vring.Run.negative (h : Vring.Run start vr heads log) (hnum : 2 ^ 31 ≤ start.num) :
    vr = start ∧ heads = [] ∧
      ∀ a ∈ log, a = ⟨.avail, 2, 2⟩ ∨ a = ⟨.avail, 4 + 2 * (start.lastAvail % start.num), 2⟩ := by
  induction h with
  | start => simp
  | pop view _ ih =>
    obtain ⟨rfl, rfl, hlog⟩ := ih
    obtain ⟨hnone, hreads⟩ := pop_negative hnum view
    refine ⟨by rw [afterPop, hnone], by rw [hnone]; rfl, fun a ha => ?_⟩
    rcases List.mem_append.mp ha with ha | ha
    · exact hlog a ha
    · exact hreads a ha
  | push i _ hi ih =>
    rw [ih.2.1] at hi
    cases hi

def Vring.oneMore (vr : Vring) (head : Nat) : View :=
  ⟨vr.lastAvail + 1, fun _ => head, fun _ _ => ⟨0, 0, 0, 0⟩, fun _ _ => none⟩

theorem Vring.oneMore_new (hwords : vr.Words) (hzero : vr.num ≠ 0) :
    u16 (vr.lastAvail + 1) ≠ vr.lastAvail ∧ ¬ vr.num < u16Sub (u16 (vr.lastAvail + 1)) vr.lastAvail := by
  have hlast := hwords.1
  unfold u16Sub u16
  omega

theorem Vring.pop_oneMore {head : Nat} (hwords : vr.Words) (hnum : vr.num < 2 ^ 31) (hhead : head < vr.slots) :
    vr.pop (vr.oneMore head) = (some ⟨head, [], [], 0, 0⟩,
      [⟨.avail, 2, 2⟩, ⟨.avail, 4 + 2 * (vr.lastAvail % vr.num), 2⟩, ⟨.desc, 16 * head + 8, 4⟩,
        ⟨.desc, 16 * head + 12, 2⟩]) := by
  obtain ⟨hin, hword⟩ := Nat.lt_min.mp hhead
  obtain ⟨hnew, hone⟩ := vr.oneMore_new hwords (Nat.ne_zero_of_lt hin)
  obtain ⟨hops, hhops⟩ : ∃ hops, hopLimit vr.num = hops + 1 := by
    refine ⟨vr.num - 1, ?_⟩
    rw [hopLimit, if_pos hnum]
    omega
  simp only [pop, oneMore, hnew, hone, if_false, u16_of_lt hword, Nat.not_le.mpr hin, hhops, walk]
  rfl

theorem Vring.Run.cycle (hwords : start.Words) (hnum : start.num < 2 ^ 31) (hzero : start.num ≠ 0) (k : Nat) :
    ∃ log, Vring.Run start ⟨start.num, u16 (start.lastAvail + k), u16 (start.usedIdx + k)⟩ [] log := by
  induction k with
  | zero =>
    refine ⟨[], ?_⟩
    rw [Nat.add_zero, Nat.add_zero, u16_of_lt hwords.1, u16_of_lt hwords.2]
    exact .start
  | succ k ih =>
    obtain ⟨log, hrun⟩ := ih
    have hwords' := (hrun.words hwords).2
    have hzero' : 0 < slots ⟨start.num, u16 (start.lastAvail + k), u16 (start.usedIdx + k)⟩ :=
      Nat.lt_min.mpr ⟨Nat.pos_of_ne_zero hzero, by decide⟩
    have hpop := Run.pop (oneMore ⟨start.num, u16 (start.lastAvail + k), u16 (start.usedIdx + k)⟩ 0) hrun
    rw [afterPop, pop_oneMore hwords' hnum hzero'] at hpop
    have hpush := Run.push 0 hpop rfl
    have hnext : ∀ n, u16 (u16 (n + k) + 1) = u16 (n + (k + 1)) := by
      intro n
      unfold u16
      omega
    simp only [popped, pushed, hnext] at hpush
    exact ⟨_, hpush⟩

theorem Vring.Run.reaches {top : Nat} (hwords : start.Words) (hnum : start.num < 2 ^ 31)
    (htop : start.slots = top + 1) (hjoin : start.lastAvail = start.usedIdx) :
    ∃ vr heads log, Vring.Run start vr heads log ∧ ⟨.avail, 4 + 2 * top, 2⟩ ∈ log ∧
      ⟨.desc, 16 * top + 12, 2⟩ ∈ log ∧ ⟨.used, 8 + 8 * top, 4⟩ ∈ log := by
  have hreached : top < start.slots := by omega
  obtain ⟨hlast, hword⟩ := Nat.lt_min.mp hreached
  have hbelow := hwords.2
  have hcount : u16 (start.usedIdx + (2 ^ 16 + top - start.usedIdx)) = top := by
    unfold u16
    omega
  obtain ⟨log, hrun⟩ := Run.cycle hwords hnum (Nat.ne_of_gt (Nat.zero_lt_of_lt hlast)) (2 ^ 16 + top - start.usedIdx)
  rw [hjoin, hcount] at hrun
  have hpop := Run.pop (oneMore ⟨start.num, top, top⟩ top) hrun
  have hnext : Vring.pop ⟨start.num, top, top⟩ (oneMore ⟨start.num, top, top⟩ top) = _ :=
    pop_oneMore (hrun.words hwords).2 hnum hreached
  rw [afterPop, hnext] at hpop
  refine ⟨_, _, _, hpop.push 0 rfl, ?_, ?_, ?_⟩
  · simp [Nat.mod_eq_of_lt hlast]
  · simp
  · simp [pushWrites, pushSlot, popped, Nat.mod_eq_of_lt hlast]

theorem Vring.mem_pop_oneMore (hwords : vr.Words) (hzero : vr.num ≠ 0) :
    ⟨.avail, 4 + 2 * (vr.lastAvail % vr.num), 2⟩ ∈ (vr.pop (vr.oneMore 0)).2 := by
  obtain ⟨hnew, hone⟩ := vr.oneMore_new hwords hzero
  have hhead : ¬ vr.num ≤ u16 0 := fun h => hzero (Nat.le_zero.mp h)
  simp [pop, oneMore, hnew, hone, hhead]

theorem Queue.adopt_some {checked : List Checked} (h : q.adopt f = some (vr, checked)) :
    q.num ≠ 0 ∧ vr = ⟨q.num, u16 f.usedIdx, u16 f.usedIdx⟩ ∧ checked = q.checked f := by
  rw [adopt] at h
  split at h
  · cases h
  · rename_i hzero
    split at h
    · cases h
      exact ⟨hzero, rfl, rfl⟩
    · cases h

def Vring.StaysInside (vr : Vring) (checked : List Checked) : Prop :=
  ∀ vr' heads log, vr.Run vr' heads log → ∀ a ∈ log, a.Inside checked

/-- The table and both rings were checked as far as an index can reach. Where the count is negative as an `int`, that is
the one slot of the available ring that is read again and again. -/
def Queue.Fits (q : Queue) (f : Adoption) : Prop :=
  if q.num < 2 ^ 31 then
    f.pinned q.descGpa q.descBytes = true ∧ f.pinned q.availGpa q.availBytes = true ∧
      f.pinned q.usedGpa q.usedBytes = true ∧ 16 * min q.num (2 ^ 16) ≤ q.descBytes ∧
      4 + 2 * min q.num (2 ^ 16) ≤ q.availBytes ∧ 4 + 8 * min q.num (2 ^ 16) ≤ q.usedBytes
  else
    u16 f.usedIdx ≤ 1 ∨ f.pinned q.descGpa q.descBytes = true ∧ f.pinned q.availGpa q.availBytes = true ∧
      6 + 2 * u16 f.usedIdx ≤ q.availBytes

theorem Queue.Fits.staysInside (h : q.Fits f) (hzero : q.num ≠ 0) :
    Vring.StaysInside ⟨q.num, u16 f.usedIdx, u16 f.usedIdx⟩ (q.checked f) := by
  have hwords : Vring.Words ⟨q.num, u16 f.usedIdx, u16 f.usedIdx⟩ := ⟨u16_lt _, u16_lt _⟩
  intro vr heads log hrun a ha
  rw [Fits] at h
  split at h
  · obtain ⟨hd, hav, hu, hdesc, havail, hused⟩ := h
    obtain ⟨area, offset, bytes⟩ := a
    rcases hrun.mem_log hwords hzero _ ha with ⟨harea, hend⟩ | ⟨harea, hend⟩ | ⟨harea, hend⟩ <;>
      obtain rfl : area = _ := harea
    · exact inside_avail.mpr (.inr ⟨hd, hav, Nat.le_trans hend havail⟩)
    · exact inside_desc.mpr (Nat.le_trans hend hdesc)
    · exact inside_used.mpr (.inr ⟨hd, hav, hu, Nat.le_trans hend hused⟩)
  · rename_i hnum
    have hslot : u16 f.usedIdx % q.num = u16 f.usedIdx := by
      have := u16_lt f.usedIdx
      exact Nat.mod_eq_of_lt (by omega)
    rcases (hrun.negative (Nat.le_of_not_lt hnum)).2.2 a ha with rfl | rfl
    · exact inside_avail.mpr (.inl (by decide))
    · rw [hslot, inside_avail]
      exact h.imp (fun h => by omega) fun h => ⟨h.1, h.2.1, by omega⟩

theorem Vring.StaysInside.fits (hnum : q.num < 2 ^ 32) (hzero : q.num ≠ 0)
    (h : Vring.StaysInside ⟨q.num, u16 f.usedIdx, u16 f.usedIdx⟩ (q.checked f)) : q.Fits f := by
  have hwords : Vring.Words ⟨q.num, u16 f.usedIdx, u16 f.usedIdx⟩ := ⟨u16_lt _, u16_lt _⟩
  rw [Queue.Fits]
  split
  · rename_i hsmall
    obtain ⟨top, htop⟩ : ∃ top, min q.num (2 ^ 16) = top + 1 :=
      Nat.exists_eq_add_one_of_ne_zero (by omega)
    obtain ⟨vr, heads, log, hrun, havail, hdesc, hused⟩ := Run.reaches hwords hsmall htop rfl
    have havail := inside_avail.mp (h _ _ _ hrun _ havail)
    have hdesc := inside_desc.mp (h _ _ _ hrun _ hdesc)
    have hused := inside_used.mp (h _ _ _ hrun _ hused)
    obtain ⟨hd, hav, hu, hused⟩ := hused.resolve_left (by omega)
    rw [htop]
    refine ⟨hd, hav, hu, ?_, ?_, by omega⟩
    · unfold Queue.descBytes u32 at hdesc ⊢
      omega
    · rcases havail with hshort | ⟨-, -, havail⟩
      · unfold Queue.availBytes u32
        omega
      · omega
  · rename_i hlarge
    have hslot : u16 f.usedIdx % q.num = u16 f.usedIdx := by
      have := u16_lt f.usedIdx
      exact Nat.mod_eq_of_lt (by omega)
    have hread := mem_pop_oneMore hwords hzero
    have hinside := h _ _ _ (.pop _ .start) _ (List.mem_append_right _ hread)
    rw [hslot, inside_avail] at hinside
    exact hinside.imp (fun h => by omega) fun h => ⟨h.1, h.2.1, by omega⟩

theorem inside_resolved : a.Inside q.resolved ↔
    a.area = .desc ∧ a.offset + a.bytes ≤ q.descBytes ∨ a.area ≠ .desc ∧ a.offset + a.bytes ≤ 8 := by
  obtain ⟨area, offset, bytes⟩ := a
  simp only [Access.Inside, mem_resolved]
  cases area <;> simp

theorem Vring.staysInside_resolved_iff (hnum : q.num < 2 ^ 32) (hzero : q.num ≠ 0) :
    Vring.StaysInside ⟨q.num, u16 f.usedIdx, u16 f.usedIdx⟩ q.resolved ↔ 2 ^ 31 ≤ q.num ∧ u16 f.usedIdx ≤ 1 := by
  have hwords : Vring.Words ⟨q.num, u16 f.usedIdx, u16 f.usedIdx⟩ := ⟨u16_lt _, u16_lt _⟩
  have hslot : 2 ^ 31 ≤ q.num → u16 f.usedIdx % q.num = u16 f.usedIdx := by
    intro hlarge
    have := u16_lt f.usedIdx
    exact Nat.mod_eq_of_lt (by omega)
  constructor
  · intro h
    have hlarge : 2 ^ 31 ≤ q.num := by
      refine Nat.le_of_not_lt fun hsmall => ?_
      obtain ⟨top, htop⟩ : ∃ top, min q.num (2 ^ 16) = top + 1 :=
        Nat.exists_eq_add_one_of_ne_zero (by omega)
      obtain ⟨vr, heads, log, hrun, -, -, hused⟩ := Run.reaches hwords hsmall htop rfl
      have hused := inside_resolved.mp (h _ _ _ hrun _ hused)
      simp only [reduceCtorEq, false_and, false_or, ne_eq, not_false_eq_true, true_and] at hused
      omega
    refine ⟨hlarge, ?_⟩
    have hread := mem_pop_oneMore hwords hzero
    have hinside := inside_resolved.mp (h _ _ _ (.pop _ .start) _ (List.mem_append_right _ hread))
    simp only [reduceCtorEq, false_and, false_or, ne_eq, not_false_eq_true, true_and, hslot hlarge] at hinside
    omega
  · rintro ⟨hlarge, hidx⟩ vr heads log hrun a ha
    rcases (hrun.negative hlarge).2.2 a ha with rfl | rfl
    · exact inside_resolved.mpr (.inr ⟨nofun, by decide⟩)
    · refine inside_resolved.mpr (.inr ⟨nofun, ?_⟩)
      dsimp only
      rw [hslot hlarge]
      omega

/-- For every queue and every content of guest memory: if the daemon adopts the queue, all accesses stay inside what
`resolve_gpa` checked only if nothing can ever be popped, and inside all that was checked exactly if the table and
both rings passed as a whole. -/
theorem accesses_checked_iff (q : Queue) (f : Adoption) (vr : Vring) (checked : List Checked) (hnum : q.num < 2 ^ 32)
    (h : q.adopt f = some (vr, checked)) :
    (vr.StaysInside q.resolved ↔ 2 ^ 31 ≤ q.num ∧ u16 f.usedIdx ≤ 1) ∧ (vr.StaysInside checked ↔ q.Fits f) := by
  obtain ⟨hzero, rfl, rfl⟩ := q.adopt_some h
  exact ⟨Vring.staysInside_resolved_iff hnum hzero, fun h => h.fits hnum hzero, fun h => h.staysInside hzero⟩

def gigabyte (usedIdx : Nat) : Adoption :=
  ⟨fun gpa len => decide (gpa + len ≤ 2 ^ 30), fun gpa len => decide (len ≠ 0 ∧ gpa + len ≤ 2 ^ 30), usedIdx⟩

theorem accesses_checked_whole :
    Vring.StaysInside ⟨256, 0, 0⟩ (Queue.checked ⟨0x1000, 0x2000, 0x3000, 256⟩ (gigabyte 0)) := by
  refine (accesses_checked_iff ⟨0x1000, 0x2000, 0x3000, 256⟩ (gigabyte 0) ⟨256, 0, 0⟩ _ (by decide) rfl).2.mpr ?_
  rw [Queue.Fits]
  decide +kernel

/-- The used ring of this queue begins in the last eight bytes of guest memory, and the daemon adopts it and writes its
first answer behind them. -/
theorem used_past_memory : ∃ vr checked, Queue.adopt ⟨0x1000, 0x2000, 2 ^ 30 - 8, 256⟩ (gigabyte 0) =
    some (vr, checked) ∧ ¬ vr.StaysInside checked ∧ ¬ vr.StaysInside (Queue.resolved ⟨0x1000, 0x2000, 2 ^ 30 - 8, 256⟩) := by
  have hpop : Vring.Run ⟨256, 0, 0⟩ ⟨256, 1, 0⟩ [0] _ := .pop (Vring.oneMore ⟨256, 0, 0⟩ 0) .start
  have hpush := hpop.push 0 rfl
  have hwrite : (⟨.used, 8, 4⟩ : Access) ∈ Vring.pushWrites ⟨256, 1, 0⟩ := by decide
  refine ⟨⟨256, 0, 0⟩, _, rfl, fun h => ?_, fun h => ?_⟩
  · exact absurd (h _ _ _ hpush _ (List.mem_append_right _ hwrite)) (by decide +kernel)
  · exact absurd (h _ _ _ hpush _ (List.mem_append_right _ hwrite)) (by decide +kernel)

end MoCoLinux.Cogpu
