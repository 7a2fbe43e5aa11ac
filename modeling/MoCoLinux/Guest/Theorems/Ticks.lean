import Mathlib.Data.List.Chain
import MoCoLinux.Guest.Ticks

/-!
# The cooperative tick device: results
-/

namespace MoCoLinux.Ticks

variable {d : Device} {lm prev now last : Nat}

structure Periodic (d : Device) : Prop where
  passage : d.passage = true
  handler : d.handler = true
  oneshot : d.oneshot = false

structure Baseline (lm prev : Nat) : Prop where
  le : lm ≤ prev
  rest : prev - lm < perTick

theorem elapsed_eq (h : Baseline lm prev) (hle : prev ≤ now) (hgap : now - prev ≤ 10000000) (hnow : now < 2 ^ 64) :
    elapsed lm now = (now - lm) / perTick ∧ elapsed lm now ≤ hz := by
  have hrest := h.rest
  have hlm := h.le
  simp only [elapsed, perTick, hz, u32, ullongSub] at hrest ⊢
  omega

theorem takeSince_eq (d : Device) (h : Baseline lm prev) (hle : prev ≤ now) (hgap : now - prev ≤ 10000000)
    (hnow : now < 2 ^ 64) :
    takeSince d lm now = ((now - lm) / perTick, { d with lastMono := lm + (now - lm) / perTick * perTick }) := by
  obtain ⟨heq, hclamp⟩ := elapsed_eq h hle hgap hnow
  rw [takeSince]
  split
  case isTrue hnone =>
    have hzero : (now - lm) / perTick = 0 := by
      rcases hnone with hnone | hnone
      · rw [Nat.sub_eq_zero_of_le hnone, Nat.zero_div]
      · rw [← heq, hnone]
    rw [hzero, Nat.zero_mul, Nat.add_zero]
  case isFalse =>
    have hback : (now - lm) / perTick * perTick ≤ now - lm := Nat.div_mul_le_self _ _
    have hlm := h.le
    rw [if_neg (Nat.not_lt.mpr hclamp), heq, ullong_of_lt (by omega)]

theorem Baseline.next (h : Baseline lm prev) (hle : prev ≤ now) : Baseline (lm + (now - lm) / perTick * perTick) now := by
  have hdiv := Nat.div_add_mod (now - lm) perTick
  have hmod : (now - lm) % perTick < perTick := Nat.mod_lt _ (by decide)
  have hlm := h.le
  rw [Nat.mul_comm] at hdiv
  exact ⟨by omega, by omega⟩

/-- The readings of a sequence of calls: from one to the next the clock does not go back, and no more than a second
passes. -/
def Paced (readings : List Nat) : Prop := readings.IsChain fun a b => a ≤ b ∧ b - a ≤ 10000000

theorem Paced.le_last {readings : List Nat} (h : Paced (prev :: readings))
    (hlast : (prev :: readings).getLast? = some last) : prev ≤ last := by
  induction readings generalizing prev with
  | nil =>
    simp only [List.getLast?_singleton, Option.some.injEq] at hlast
    exact Nat.le_of_eq hlast
  | cons now rest ih =>
    obtain ⟨⟨hle, -⟩, htail⟩ := List.isChain_cons_cons.mp h
    rw [List.getLast?_cons_cons] at hlast
    exact Nat.le_trans hle (ih htail hlast)

theorem sum_run_since (calls : List (Caller × Nat)) (hd : Periodic d) (hlm : d.lastMono ≠ 0)
    (hbase : Baseline d.lastMono prev) (hpaced : Paced (prev :: calls.map Prod.snd))
    (hwords : ∀ now ∈ calls.map Prod.snd, now < 2 ^ 64) (hlast : (prev :: calls.map Prod.snd).getLast? = some last) :
    (run calls d).sum = (last - d.lastMono) / perTick := by
  induction calls generalizing d prev with
  | nil =>
    simp only [List.map_nil, List.getLast?_singleton, Option.some.injEq] at hlast
    rw [← hlast, Nat.div_eq_of_lt hbase.rest]
    rfl
  | cons call rest ih =>
    obtain ⟨caller, now⟩ := call
    rw [List.map_cons] at hpaced hwords hlast
    rw [List.getLast?_cons_cons] at hlast
    obtain ⟨⟨hle, hgap⟩, htail⟩ := List.isChain_cons_cons.mp hpaced
    dsimp only at hle hgap htail hlast
    have htake : takeTicks d now = ((now - d.lastMono) / perTick,
        { d with lastMono := d.lastMono + (now - d.lastMono) / perTick * perTick }) := by
      rw [takeTicks, if_neg (by simp [hd.passage, hd.handler]), if_neg (by simp [hd.oneshot]), if_neg hlm]
      exact takeSince_eq d hbase hle hgap (hwords now (by simp))
    have hnext := hbase.next hle
    have hsum := ih (d := { d with lastMono := d.lastMono + (now - d.lastMono) / perTick * perTick })
      { hd with } (by simp only; omega) hnext htail (fun n hn => hwords n (by simp [hn])) hlast
    have hafter := Nat.le_trans hnext.le (Paced.le_last htail hlast)
    rw [run, htake, List.sum_cons, hsum]
    calc (now - d.lastMono) / perTick + (last - (d.lastMono + (now - d.lastMono) / perTick * perTick)) / perTick
        = (last - (d.lastMono + (now - d.lastMono) / perTick * perTick) + (now - d.lastMono) / perTick * perTick)
            / perTick := by rw [Nat.add_mul_div_right _ _ (by decide), Nat.add_comm]
      _ = (last - d.lastMono) / perTick := by congr 1; omega

/-- The ticks of all calls in periodic mode are the whole ticks between the first and the last reading, whoever calls
and however often. -/
theorem ticks_sum (d : Device) (hd : Periodic d) (hstart : d.lastMono = 0) (calls : List (Caller × Nat))
    (first last : Nat) (hfirst : (calls.map Prod.snd).head? = some first)
    (hlast : (calls.map Prod.snd).getLast? = some last) (hreadings : ∀ now ∈ calls.map Prod.snd, now ≠ 0 ∧ now < 2 ^ 64)
    (hpaced : Paced (calls.map Prod.snd)) : (run calls d).sum = (last - first) / perTick := by
  cases calls with
  | nil => cases hfirst
  | cons call rest =>
    obtain ⟨caller, now⟩ := call
    cases hfirst
    obtain ⟨hnow, hword⟩ := hreadings now (by simp)
    have hbase : Baseline now now := ⟨Nat.le_refl _, by rw [Nat.sub_self]; decide⟩
    have htake : takeTicks d now = (0, { d with lastMono := now }) := by
      rw [takeTicks, if_neg (by simp [hd.passage, hd.handler]), if_neg (by simp [hd.oneshot]), if_pos hstart,
        takeSince_eq d hbase (Nat.le_refl _) (by omega) hword, Nat.sub_self, Nat.zero_div, Nat.zero_mul, Nat.add_zero]
    have hsum := sum_run_since (d := { d with lastMono := now }) rest { hd with } hnow hbase
      hpaced (fun n hn => (hreadings n (by simp [hn])).2) hlast
    rw [run, htake, List.sum_cons, hsum, Nat.zero_add]

theorem ticks_sum_three : (run [(.drainTime, 5), (.coTimer, 15004), (.drainTime, 10015004)] ⟨true, true, false, 0, 0⟩).sum =
    (10015004 - 5) / perTick :=
  ticks_sum ⟨true, true, false, 0, 0⟩ ⟨rfl, rfl, rfl⟩ rfl _ 5 10015004 rfl rfl (by decide) (by simp [Paced])

/-- Had a little more than a second gone by, the clamp would have forgotten a tick. -/
example : run [(.drainTime, 5), (.coTimer, 15004), (.drainTime, 10020005)] ⟨true, true, false, 0, 0⟩ = [0, 1, 1000] := by
  decide

end MoCoLinux.Ticks
