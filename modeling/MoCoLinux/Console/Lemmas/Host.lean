import MoCoLinux.Console.Lemmas.Contract

/-!
# The console rings: the host
-/

namespace MoCoLinux.Console

open Function
open Threads (Prog)
open Threads.Prog (Safe)

variable {s s' : Console} {i : Nat} {c : PumpCall} {w w' : Index}

abbrev HostSafe {α : Type} (i : Nat) (Q : α → Console → Prop) (p : Prog Console α) (s : Console) : Prop :=
  p.Safe Inv (contract (.host i)) (Apart (.host i)) Q s

theorem HostGuar.holder (hlock : s.lock = some i) (hlock' : s'.lock = s.lock) (hgrows : Grows s s') (hinv : s'.Inv)
    (hout : s'.outLock = s.outLock) (hwriter : SameWriter s s') (hreader : SameReader s s') : HostGuar i s s' := by
  refine ⟨hgrows, hinv, fun j _ => by rw [hlock'], fun j hj hl => ?_, hout, hwriter, hreader⟩
  rw [hlock, Option.some.injEq] at hl
  exact absurd hl.symm hj

theorem HostRely.value (hr : HostRely i s s') (hlock : s.lock = some i) (hw : w.ofHost = true)
    (h : s.value w = u32 (s.position w)) : s'.value w = u32 (s'.position w) := by
  have hsame := hr.owned hlock
  have hpos : s'.position w = s.position w := by
    cases w with
    | inHead => rw [position, position, Console.inHead, Console.inHead, hr.inStart, hsame.input]
    | inTail => cases hw
    | outHead => cases hw
    | outTail => exact hsame.outPos
  rw [value_congr (hsame.words w (.inl hw)), h, hpos]

structure Moving (i : Nat) (w : Index) (bytes : List UInt8) (s : Console) : Prop where
  lock : s.lock = some i
  moving : s.moving = some w
  read : ∀ k < bytes.length, bytes.getD k 0 = s.words w k
  own : w.ofHost = true → s.value w = u32 (s.position w)

variable {bytes : List UInt8}

theorem Moving.stable (h : Moving i w bytes s) (hr : HostRely i s s') : Moving i w bytes s' := by
  have hsame := hr.owned h.lock
  refine ⟨hr.lock.mpr h.lock, hsame.moving.trans h.moving, fun k hk => ?_, fun hw => hr.value h.lock hw (h.own hw)⟩
  rw [hsame.words w (.inr h.moving)]
  exact h.read k hk

theorem Moving.snoc (h : Moving i w bytes s) :
    Moving i w (bytes ++ [s.words w bytes.length]) s := by
  refine ⟨h.lock, h.moving, fun k hk => ?_, h.own⟩
  rw [List.length_append, List.length_singleton, Nat.lt_succ_iff_lt_or_eq] at hk
  rcases hk with hk | rfl
  · rw [List.getD_append _ _ _ _ hk]
    exact h.read k hk
  · rw [List.getD_append_right _ _ _ _ (Nat.le_refl _), Nat.sub_self]
    rfl

theorem Moving.value (h : Moving i w bytes s) (hinv : s.Inv) :
    s.value w = u32 (s.position w) := by
  cases hw : w.ofHost with
  | false => exact hinv.words w (.inl hw)
  | true => exact h.own hw

theorem HostGuar.move {m : Option Index} (hinv : s.Inv) (hlock : s.lock = some i)
    (hwords : ∀ w, w.ofHost = false ∨ m ≠ some w → s.value w = u32 (s.position w)) :
    HostGuar i s { s with moving := m } := by
  refine .holder hlock rfl ⟨rfl, rfl, List.prefix_rfl, List.prefix_rfl, Nat.le_refl _, Nat.le_refl _⟩ ?_ rfl
    ⟨rfl, rfl⟩ ⟨rfl⟩
  refine { hinv with words := hwords, still := fun hl => ?_ }
  rw [hlock] at hl
  cases hl

def Calm (P : Console → Prop) (s : Console) : Prop := P s ∧ s.moving = none

structure Local (i : Nat) (P : Console → Prop) : Prop where
  lock : ∀ {s}, P s → s.lock = some i
  stable : ∀ {s s'}, P s → HostRely i s s' → s'.Inv → P s'
  moving : ∀ {s} m, P s → P { s with moving := m }
  words : ∀ {s} w, P s → P { s with words := w }

variable {P : Console → Prop}

theorem Local.calm (L : Local i P) {s s' : Console} (h : Calm P s) (hr : HostRely i s s')
    (hinv : s'.Inv) : Calm P s' :=
  ⟨L.stable h.1 hr hinv, (hr.owned (L.lock h.1)).moving.trans h.2⟩

theorem Local.ret {α : Type} (L : Local i P) {a : α} {Q : α → Console → Prop} (h : Calm P s)
    (hQ : ∀ s, Calm P s → s.Inv → Q a s) : HostSafe i Q (pure a) s :=
  Safe.ret (P := Calm P) L.calm hQ h

theorem readU32_safe (L : Local i P) (w : Index) (hP : Calm P s) :
    HostSafe i (fun r s => (r = none ∧ Calm P s) ∨ ∃ s₀, r = some (u32 (s₀.position w)) ∧ s₀.Inv ∧ Calm P s₀ ∧
      HostRely i s₀ s ∧ Calm P s) (readU32 w) s := by
  refine Safe.pick fun works => ?_
  by_cases hw : works = 0
  · rw [if_pos hw]
    exact L.ret hP fun s hP _ => .inl ⟨rfl, hP⟩
  rw [if_neg hw]
  refine Safe.act (P := Calm P) L.calm (fun s b₀ t hP hinv hf _ => ?_) hP
  cases hf
  have hlock := L.lock hP.1
  have hvalue : ∀ w, s.value w = u32 (s.position w) := fun w => hinv.words w (.inr (by rw [hP.2]; simp))
  refine ⟨.move hinv hlock fun w _ => hvalue w, ?_⟩
  have hmoving : Moving i w [] { s with moving := some w } := ⟨hlock, rfl, nofun, fun _ => hvalue w⟩
  refine Safe.read (lawful (.host i)) (P := fun s' => P s' ∧ Moving i w [s.words w 0] s')
    (fun hP hr hinv => ⟨L.stable hP.1 hr hinv, hP.2.stable hr⟩) (fun s₁ h₁ hinv => ?_)
    ⟨L.moving _ hP.1, hmoving.snoc⟩
  refine Safe.read (lawful (.host i)) (P := fun s' => P s' ∧ Moving i w [s.words w 0, s₁.words w 1] s')
    (fun hP hr hinv => ⟨L.stable hP.1 hr hinv, hP.2.stable hr⟩) (fun s₂ h₂ hinv => ?_) ⟨h₁.1, h₁.2.snoc⟩
  refine Safe.act (P := fun s' => P s' ∧ Moving i w [s.words w 0, s₁.words w 1, s₂.words w 2] s')
    (fun hP hr hinv => ⟨L.stable hP.1 hr hinv, hP.2.stable hr⟩) (fun s₃ b₃ t h₃ hinv hf _ => ?_)
    ⟨h₂.1, h₂.2.snoc⟩
  cases hf
  have hread : Net.le32 [s.words w 0, s₁.words w 1, s₂.words w 2, s₃.words w 3] = u32 (s₃.position w) := by
    have hb₀ : s.words w 0 = s₃.words w 0 := h₃.2.read 0 (by simp)
    have hb₁ : s₁.words w 1 = s₃.words w 1 := h₃.2.read 1 (by simp)
    have hb₂ : s₂.words w 2 = s₃.words w 2 := h₃.2.read 2 (by simp)
    rw [hb₀, hb₁, hb₂]
    exact h₃.2.value hinv
  have hguar : HostGuar i s₃ { s₃ with moving := none } := by
    refine .move hinv h₃.2.lock fun w' _ => ?_
    by_cases heq : w' = w
    · rw [heq]
      exact h₃.2.value hinv
    · refine hinv.words w' (.inr ?_)
      rw [h₃.2.moving]
      exact fun h => heq (Option.some.inj h).symm
  refine ⟨hguar, ?_⟩
  change HostSafe i _ (pure (some (Net.le32 [s.words w 0, s₁.words w 1, s₂.words w 2, s₃.words w 3]))) _
  rw [hread]
  refine Safe.ret (P := fun s => HostRely i { s₃ with moving := none } s ∧ Calm P s)
    (fun hP hr hinv => ⟨(lawful (.host i)).trans hP.1 hr, L.calm hP.2 hr hinv⟩) (fun s hP _ => .inr ?_)
    ⟨(lawful (.host i)).refl _, L.moving _ h₃.1, rfl⟩
  exact ⟨{ s₃ with moving := none }, rfl, hguar.inv, ⟨L.moving _ h₃.1, rfl⟩, hP.1, hP.2⟩

theorem words_setByte (s : Console) (w : Index) (k v : Nat) :
    (s.setByte w k v).words w = update (s.words w) k ((Net.word32 v).getD k 0) := update_self ..

theorem words_setByte_of_ne (s : Console) (k v : Nat) (h : w' ≠ w) : (s.setByte w k v).words w' = s.words w' :=
  update_of_ne h _ _

structure Stored (i : Nat) (w : Index) (v n : Nat) (s : Console) : Prop where
  lock : s.lock = some i
  moving : s.moving = some w
  written : ∀ k < n, s.words w k = (Net.word32 v).getD k 0

variable {v n : Nat}

theorem Stored.stable (h : Stored i w v n s) (hr : HostRely i s s') : Stored i w v n s' := by
  have hsame := hr.owned h.lock
  refine ⟨hr.lock.mpr h.lock, hsame.moving.trans h.moving, fun k hk => ?_⟩
  rw [hsame.words w (.inr h.moving)]
  exact h.written k hk

theorem Stored.setByte (h : Stored i w v n s) : ∀ k < n + 1,
    (s.setByte w n v).words w k = (Net.word32 v).getD k 0 := by
  intro k hk
  rw [words_setByte]
  by_cases heq : k = n
  · rw [heq, update_self]
  · rw [update_of_ne heq]
    exact h.written k (by omega)

theorem HostGuar.setByte {k : Nat} (hinv : s.Inv) (hlock : s.lock = some i) (hw : w.ofHost = true)
    (hmoving : s.moving = none ∨ s.moving = some w) : HostGuar i s { s.setByte w k v with moving := some w } := by
  refine .holder hlock rfl ⟨rfl, rfl, List.prefix_rfl, List.prefix_rfl, Nat.le_refl _, Nat.le_refl _⟩ ?_ rfl
    ⟨rfl, rfl⟩ ⟨rfl⟩
  refine { hinv with words := fun w' hw' => ?_, still := fun hl => ?_ }
  · have hne : w' ≠ w := by
      rintro rfl
      rcases hw' with h | h
      · rw [hw] at h
        cases h
      · exact h rfl
    have hkeep : { s.setByte w k v with moving := some w }.words w' = s.words w' := words_setByte_of_ne s k v hne
    rw [value_congr hkeep]
    refine hinv.words w' (.inr ?_)
    rcases hmoving with h | h
    · rw [h]
      exact nofun
    · rw [h]
      exact fun h => hne (Option.some.inj h).symm
  · have hl : s.lock = none := hl
    rw [hlock] at hl
    cases hl

theorem Stored.middle (L : Local i P) (hw : w.ofHost = true)
    (h : P s ∧ Stored i w v n s) (hinv : s.Inv) :
    HostGuar i s (s.setByte w n v) ∧ P (s.setByte w n v) ∧ Stored i w v (n + 1) (s.setByte w n v) := by
  have heq : { s.setByte w n v with moving := some w } = s.setByte w n v := by
    rw [← h.2.moving]
    rfl
  refine ⟨?_, L.words _ h.1, h.2.lock, h.2.moving, h.2.setByte⟩
  rw [← heq]
  exact .setByte hinv h.2.lock hw (.inr h.2.moving)

theorem writeU32_safe {P' : Console → Prop} (L : Local i P) (L' : Local i P')
    {done : Console → Console} (hw : w.ofHost = true)
    (hdone : ∀ s, P s → s.Inv → s.moving = some w → (∀ k < 4, (s.setByte w 3 v).words w k = (Net.word32 v).getD k 0) →
      HostGuar i s (done { s.setByte w 3 v with moving := none }) ∧
      Calm P' (done { s.setByte w 3 v with moving := none })) (hP : Calm P s) :
    HostSafe i (fun ok => Calm (if ok then P' else P)) (writeU32 w v done) s := by
  refine Safe.pick fun works => ?_
  by_cases hworks : works = 0
  · rw [if_pos hworks]
    exact L.ret hP fun s hP _ => hP
  rw [if_neg hworks]
  have hst : ∀ {n : Nat} {s s' : Console}, P s ∧ Stored i w v n s → HostRely i s s' → s'.Inv →
      P s' ∧ Stored i w v n s' := fun hP hr hinv => ⟨L.stable hP.1 hr hinv, hP.2.stable hr⟩
  refine Safe.write (P := Calm P) L.calm (fun s hP hinv _ => ⟨?_, ?_⟩) hP
  · exact .setByte hinv (L.lock hP.1) hw (.inl hP.2)
  have hlock := L.lock hP.1
  have hnone : Stored i w v 0 { s with moving := some w } := ⟨hlock, rfl, nofun⟩
  refine Safe.write (P := fun s => P s ∧ Stored i w v 1 s) hst (fun s h hinv _ => ?_)
    ⟨L.moving _ (L.words _ hP.1), hlock, rfl, hnone.setByte⟩
  obtain ⟨hguar, h⟩ := Stored.middle L hw h hinv
  refine ⟨hguar, Safe.write (P := fun s => P s ∧ Stored i w v 2 s) hst (fun s h hinv _ => ?_) h⟩
  obtain ⟨hguar, h⟩ := Stored.middle L hw h hinv
  refine ⟨hguar, Safe.write (P := fun s => P s ∧ Stored i w v 3 s) hst (fun s h hinv _ => ?_) h⟩
  obtain ⟨hguar, hP'⟩ := hdone s h.1 hinv h.2.moving h.2.setByte
  exact ⟨hguar, L'.ret hP' fun s hP' _ => hP'⟩

theorem words_moved {p : Nat} (hinv : s.Inv) (hmoving : s.moving = some w)
    (hbytes : ∀ k < 4, (s.setByte w 3 (u32 p)).words w k = (Net.word32 (u32 p)).getD k 0)
    (hwords : s'.words = (s.setByte w 3 (u32 p)).words) (hpos : s'.position w = p)
    (hother : ∀ w', w' ≠ w → s'.position w' = s.position w') (w' : Index) : s'.value w' = u32 (s'.position w') := by
  by_cases heq : w' = w
  · rw [heq, hpos]
    refine value_of_bytes (u32_lt p) fun k hk => ?_
    rw [hwords]
    exact hbytes k hk
  · have hkeep : s'.words w' = s.words w' := by
      rw [hwords]
      exact words_setByte_of_ne s 3 _ heq
    rw [value_congr hkeep, hother w' heq]
    refine hinv.words w' (.inr ?_)
    rw [hmoving]
    exact fun h => heq (Option.some.inj h).symm

end MoCoLinux.Console
