import MoCoLinux.Kload.Lemmas.Grow
import MoCoLinux.Kload.Lemmas.Memory
import MoCoLinux.Kload.Theorems.Translation

/-!
# The blocks of guest RAM (`kload_grow_to`, `co_kload_pseudo_frame_va`)
-/

namespace MoCoLinux.Loader

open Arch (Mem)
open Kload

/-- The host's answers to requests for memory, in any pattern; what it gives is not at `NULL`. -/
def Grants (host : Host) : Prop := ∀ r pages, host.pages r = some pages → pages.va ≠ 0

inductive BackingOp where
  | growTo (host : Host) (target : Nat)
  | lookup (pfn : Nat)

inductive BackingStep : Loader × Mem → BackingOp → Loader × Mem → Prop where
  | growTo {l m host target ok l' m'} : Grants host → growTo host target l m = some (ok, l', m') →
      BackingStep (l, m) (.growTo host target) (l', m')
  | lookup {l m pfn} : BackingStep (l, m) (.lookup pfn) ({ l with k := (l.k.pseudoFrameVa pfn).2 }, m)

def BackingReachable : Loader × Mem → Prop :=
  Runs.Reach (fun s => LoaderStart s.1.k ∧ s.1.k.block = []) BackingStep

structure Sound (k : Kload) : Prop where
  bookkept : k.Bookkept
  stacked : Stacked 0 k.block (k.backedPages * 4096)
  paged : ∀ b ∈ k.block, b.pseudoBase % 4096 = 0 ∧ b.bytes % 4096 = 0 ∧ b.bytes < 2 ^ 32

theorem Sound.start {k : Kload} (h : LoaderStart k) (hnil : k.block = []) : Sound k := by
  refine ⟨h.bookkept, ?_, by simp [hnil]⟩
  obtain ⟨k₀, capacity, hzero, halloc⟩ := h
  obtain ⟨slots, -, -, -, -, -, rfl⟩ := translationAlloc_ok halloc
  rw [hnil]
  simp [Stacked, hzero]

theorem Sound.withBlock {k : Kload} (h : Sound k) {pages : HostPages} {a : Nat} {p2m m2p : Nat → Nat}
    (hva : pages.va ≠ 0) (ha : a ≤ 8192) (hpos : 0 < k.blockPages (a * 4096))
    (hbook : (k.withBlock pages (a * 4096) p2m m2p).Bookkept) : Sound (k.withBlock pages (a * 4096) p2m m2p) := by
  have hbase : k.backedPages <<< 12 = k.backedPages * 4096 := Nat.shiftLeft_eq ..
  have hsize : k.blockPages (a * 4096) <<< 12 = k.blockPages (a * 4096) * 4096 := Nat.shiftLeft_eq ..
  refine ⟨hbook, ?_, fun b hb => ?_⟩
  · simp only [Kload.withBlock, Nat.add_mul, hbase, hsize]
    exact h.stacked.append rfl (Nat.mul_pos hpos (by decide)) hva
  · rcases List.mem_append.mp hb with hb | hb
    · exact h.paged b hb
    · have hle : k.blockPages (a * 4096) ≤ a := by
        rw [blockPages_mul k ha]
        omega
      rw [List.mem_singleton.mp hb, hbase, hsize]
      exact ⟨Nat.mul_mod_left .., Nat.mul_mod_left .., by dsimp only; omega⟩

theorem Sound.growTo {l : Loader} (h : Sound l.k) {host : Host} (hg : Grants host) (target : Nat) (m : Mem) :
    ∃ ok l' m', growTo host target l m = some (ok, l', m') ∧ Sound l'.k := by
  obtain ⟨ok, l', m', hr, h', -⟩ : ∃ ok l' m', Loader.growTo host target l m = some (ok, l', m') ∧ Sound l'.k ∧ _ :=
    growTo_rule (P := fun l _ => Sound l.k) (fun {a l m} h ha _ => by
      rcases blockAlloc_cases h.bookkept host (a * 4096) m with ⟨r, hno⟩ | ⟨pages, p2m, m2p, hpages, href, -, hyes⟩
      · exact .inl ⟨_, hno, rfl, h⟩
      · obtain ⟨hlen, hpos, -⟩ := not_blockRefused href h.bookkept.backed h.bookkept.geometry.capacity_lt
        refine .inr ⟨_, _, hyes, h.withBlock (hg _ _ hpages) ha hpos (blockAlloc_bookkept h.bookkept hyes), hlen, ?_⟩
        simp [Kload.withBlock]) h
  exact ⟨ok, l', m', hr, h'⟩

theorem Sound.lastHit {k : Kload} (h : Sound k) (hit : Nat) : Sound { k with lastHit := hit } := by
  obtain ⟨p2m, m2p, hp, hm, hf⟩ := h.bookkept.arrays
  exact ⟨⟨{ h.bookkept.geometry with }, h.bookkept.backed, p2m, m2p, hp, hm, { hf with }⟩, h.stacked, h.paged⟩

theorem BackingReachable.sound {s : Loader × Mem} (h : BackingReachable s) : Sound s.1.k := by
  refine Runs.Reach.invariant (P := fun s => Sound s.1.k) (fun _ hs => .start hs.1 hs.2) ?_ h
  rintro s op s' hs hstep
  cases hstep with
  | @growTo l m host target ok l' m' hg hr =>
    obtain ⟨ok₁, l₁, m₁, hr₁, h₁⟩ := Sound.growTo hs hg target m
    cases hr.symm.trans hr₁
    exact h₁
  | @lookup l m pfn =>
    obtain ⟨hit, heq⟩ := pseudoFrameVa_snd l.k pfn
    show Sound (l.k.pseudoFrameVa pfn).2
    rw [heq]
    exact Sound.lastHit hs hit

/-- In every run of `kload_grow_to` and of lookups: `kload_grow_to` ends, the blocks lie one after the other from zero
to the end of RAM, and a lookup answers for exactly the frames of RAM, with the place of that page in its block. -/
theorem blocks_partition {s : Loader × Mem} (h : BackingReachable s) :
    (∀ host target, Grants host → ∃ r, growTo host target s.1 s.2 = some r) ∧
    Stacked 0 s.1.k.block (s.1.k.backedPages * 4096) ∧
    ∀ pfn hit, ((({ s.1.k with lastHit := hit } : Kload).pseudoFrameVa pfn).1 ≠ 0 ↔ pfn < s.1.k.backedPages) ∧
      (pfn < s.1.k.backedPages → ∃ b ∈ s.1.k.block, (∀ c ∈ s.1.k.block, c.Holds (pfn * 4096) → c = b) ∧
        b.pseudoBase ≤ pfn * 4096 ∧ pfn * 4096 + 4096 ≤ b.pseudoBase + b.bytes ∧
        (({ s.1.k with lastHit := hit } : Kload).pseudoFrameVa pfn).1 = b.va + (pfn * 4096 - b.pseudoBase)) := by
  have hs := h.sound
  refine ⟨fun host target hg => ?_, hs.stacked, fun pfn hit => ?_⟩
  · obtain ⟨ok, l', m', hr, -⟩ := hs.growTo hg target s.2
    exact ⟨_, hr⟩
  · by_cases hpfn : pfn < s.1.k.backedPages
    · have hlt : s.1.k.backedPages < 2 ^ 32 :=
        Nat.lt_of_le_of_lt hs.bookkept.backed hs.bookkept.geometry.capacity_lt
      obtain ⟨b, hb, _, hva, hholds, heq⟩ := pseudoFrameVa_block (hs.lastHit hit).stacked hpfn hlt
      obtain ⟨hbase, hbytes, hsmall⟩ := hs.paged b hb
      have haddr : blockAddress b (pfn * 4096) = b.va + (pfn * 4096 - b.pseudoBase) := by
        rw [blockAddress, ulong_of_lt (by omega)]
      rw [heq, haddr]
      refine ⟨⟨fun _ => hpfn, fun _ => by omega⟩, fun _ => ⟨b, hb, fun c hc hcpa => ?_, hholds.1, by omega, rfl⟩⟩
      exact hs.stacked.unique (Nat.mul_lt_mul_of_pos_right hpfn (by decide)) hc hb hcpa hholds
    · rw [pseudoFrameVa_beyond (k := { s.1.k with lastHit := hit }) (Nat.le_of_not_lt hpfn)]
      exact ⟨⟨fun hne => absurd rfl hne, fun hlt => absurd hlt hpfn⟩, fun hlt => absurd hlt hpfn⟩

/-- The first request, for two pages, fails; the next ones, for one page each, do not. -/
def halving : Host where
  pages r := if r = 0 then none else some ⟨0x10000 * r, 0, fun i => 100 * r + i⟩
  p2mOk := true
  m2pOk := true
  mallocOk := true
  p2mPa _ := 0
  m2pPa _ := 0
  osMap _ := false

theorem blocks_partition_halving : ∃ s, BackingReachable s ∧ s.1.k.block.map Block.va = [0x10000, 0x20000] ∧
    (s.1.k.pseudoFrameVa 1).1 ≠ 0 ∧ (s.1.k.pseudoFrameVa 2).1 = 0 := by
  have hgrow : (growTo halving 8192 ⟨smallLoader 2, 0, false⟩ fun _ _ => 0).map
      (fun r => (r.2.1.k.block.map Block.va, r.2.1.k.backedPages)) = some ([0x10000, 0x20000], 2) := by decide +kernel
  have hgrants : Grants halving := by
    intro r pages hr
    simp only [halving] at hr
    split at hr
    · cases hr
    · cases hr
      exact Nat.mul_ne_zero (by decide) ‹_›
  obtain ⟨⟨ok, l, m⟩, hr, heq⟩ := Option.map_eq_some_iff.mp hgrow
  simp only [Prod.mk.injEq] at heq
  have hreach : BackingReachable (l, m) := .next (.start ⟨smallLoader_start 2, rfl⟩) (.growTo hgrants hr)
  obtain ⟨-, -, hlookup⟩ := blocks_partition hreach
  refine ⟨(l, m), hreach, heq.1, (hlookup 1 l.k.lastHit).1.mpr (by simp [heq.2]), not_not.mp fun hne => ?_⟩
  have hlt := (hlookup 2 l.k.lastHit).1.mp hne
  simp [heq.2] at hlt

end MoCoLinux.Loader
