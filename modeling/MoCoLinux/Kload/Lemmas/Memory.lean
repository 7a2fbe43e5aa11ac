import Mathlib.Data.List.Pairwise
import MoCoLinux.Kload.Lemmas.Frames
import MoCoLinux.Kload.Memory

/-!
# Guest RAM in host memory: lemmas
-/

namespace MoCoLinux.Kload

variable {k k' : Kload} {block : List Block} {pages pa pa' : Nat} {b c : Block}

/-- The blocks hold the pages of guest RAM, whole, and each in memory of its own. -/
structure Backed (block : List Block) (pages : Nat) : Prop where
  stacked : Stacked 0 block (pages * 4096)
  aligned : ∀ b ∈ block, b.pseudoBase % 4096 = 0 ∧ b.bytes % 4096 = 0 ∧ b.bytes < 2 ^ 32
  apart : block.Pairwise Block.Apart
  pages_lt : pages < 2 ^ 32

theorem withBlock_backed {host : HostPages} {bytes : Nat} {p2m m2p : Nat → Nat} (h : Backed k.block k.backedPages)
    (hbytes : bytes ≤ chunkBytes) (hva : host.va ≠ 0)
    (hapart : ∀ b ∈ k.block, b.Apart ⟨host.va, k.backedPages <<< 12, k.blockPages bytes <<< 12, host.mdl⟩)
    (hpos : 0 < k.blockPages bytes) (hfit : k.backedPages + k.blockPages bytes < 2 ^ 32) :
    Backed (k.withBlock host bytes p2m m2p).block (k.withBlock host bytes p2m m2p).backedPages := by
  have hle : k.blockPages bytes * 4096 ≤ chunkBytes := by
    have hsmall : k.blockBytes bytes ≤ bytes := by
      unfold blockBytes
      split <;> omega
    rw [blockPages, ulong, Nat.shiftRight_eq_div_pow]
    omega
  have hbase : k.backedPages <<< 12 = k.backedPages * 4096 := Nat.shiftLeft_eq ..
  have hsize : k.blockPages bytes <<< 12 = k.blockPages bytes * 4096 := Nat.shiftLeft_eq ..
  refine ⟨?_, fun b hb => ?_, ?_, hfit⟩
  · simp only [withBlock, Nat.add_mul, hbase, hsize]
    exact h.stacked.append rfl (Nat.mul_pos hpos (by decide)) hva
  · rcases List.mem_append.mp hb with hb | hb
    · exact h.aligned b hb
    · rw [List.mem_singleton.mp hb, hbase, hsize]
      exact ⟨Nat.mul_mod_left .., Nat.mul_mod_left .., Nat.lt_of_le_of_lt hle (by decide)⟩
  · refine List.pairwise_append.mpr ⟨h.apart, List.pairwise_singleton .., fun b hb c hc => ?_⟩
    rw [List.mem_singleton.mp hc]
    exact hapart b hb

theorem Backed.step {op} (h : Backed k.block k.backedPages) (hk : k.Bookkept) (hhost : ApartHost k op)
    (hs : LoaderStep k op k') : Backed k'.block k'.backedPages := by
  by_cases hop : ∀ host bytes, op ≠ .blockAlloc host bytes
  · rcases hs.window hop with rfl | ⟨p2m', next, -, rfl⟩ <;> exact h
  · cases hs with
    | @blockAlloc host bytes ok _ hb =>
      rcases hk.blockAlloc host bytes with hr | ⟨pages, p2m, m2p, rfl, href, -, hfit, -, hr⟩
      · rw [hb] at hr
        cases hr
        exact h
      · rw [hb] at hr
        cases hr
        have hcap := hk.geometry.capacity_lt
        obtain ⟨hbytes, hpages⟩ := hhost
        obtain ⟨hva, hapart⟩ := hpages pages rfl
        exact withBlock_backed h hbytes hva hapart (not_blockRefused href hk.backed hcap).2.1 (by omega)
    | windowMap => simp at hop
    | windowMapAt => simp at hop
    | windowUnmap => simp at hop

theorem Populated.backed (h : k.Populated) : Backed k.block k.backedPages := by
  obtain ⟨k₀, hreach, hblock, hbacked⟩ := h
  have hinv : k₀.Bookkept ∧ Backed k₀.block k₀.backedPages := by
    refine Runs.Reach.invariant (P := fun k => k.Bookkept ∧ Backed k.block k.backedPages) ?_ ?_ hreach
    · rintro k ⟨hstart, hnil⟩
      refine ⟨hstart.bookkept, ?_⟩
      obtain ⟨k₁, capacity, hzero, halloc⟩ := hstart
      obtain ⟨slots, -, -, -, -, -, rfl⟩ := translationAlloc_ok halloc
      rw [hnil]
      simp only [hzero]
      exact ⟨rfl, by simp, .nil, by decide⟩
    · rintro k op k' ⟨hk, hback⟩ ⟨hhost, hs⟩
      exact ⟨hk.step hs, hback.step hk hhost hs⟩
  rw [hblock, hbacked]
  exact hinv.2

theorem Stacked.unique {stop : Nat} (h : Stacked 0 block stop) (hpa : pa < stop) (hb : b ∈ block) (hc : c ∈ block)
    (hbpa : b.Holds pa) (hcpa : c.Holds pa) : b = c := by
  obtain ⟨t, d, hd, -, -, -, -, hleft, hright⟩ := h.locate (Nat.zero_le pa) hpa
  have honly : ∀ e ∈ block, e.Holds pa → e = d := fun e he hepa => by
    obtain ⟨i, hi⟩ := List.mem_iff_getElem?.mp he
    have hprobe := blockProbe_eq hi hepa.1 hepa.2
    rcases Nat.lt_trichotomy i t with hlt | rfl | hgt
    · exact absurd (hprobe.symm.trans (hleft i hlt)) nofun
    · exact Option.some.inj (hi.symm.trans hd)
    · exact absurd (hprobe.symm.trans (hright i hgt)) nofun
  rw [honly b hb hbpa, honly c hc hcpa]

instance : Std.Symm Block.Apart := ⟨fun _ _ h => h.symm⟩

namespace Backed

theorem find (h : Backed block pages) (hpa : pa < pages * 4096) : ∃ b ∈ block, b.va ≠ 0 ∧ b.Holds pa := by
  obtain ⟨t, b, hb, hva, hle, hlt, -⟩ := h.stacked.locate (Nat.zero_le pa) hpa
  exact ⟨b, List.mem_of_getElem? hb, hva, hle, hlt⟩

theorem hostVa_eq (h : Backed block pages) (hpa : pa < pages * 4096) (hb : b ∈ block) (hbpa : b.Holds pa) :
    hostVa block pa = b.va + (pa - b.pseudoBase) := by
  cases hfind : block.find? fun b => decide (b.Holds pa) with
  | none => exact absurd hbpa (by simpa using List.find?_eq_none.mp hfind b hb)
  | some c =>
    have hcpa : c.Holds pa := by simpa using List.find?_some hfind
    rw [h.stacked.unique hpa hb (List.mem_of_find?_eq_some hfind) hbpa hcpa]
    simp only [hostVa, hfind]

theorem hostVa_add (h : Backed block pages) {j : Nat} (hpa : pa < pages * 4096) (hj : pa % 4096 + j < 4096) :
    hostVa block (pa + j) = hostVa block pa + j := by
  obtain ⟨b, hb, -, hbpa⟩ := h.find hpa
  obtain ⟨hbase, hbytes, -⟩ := h.aligned b hb
  unfold Block.Holds at hbpa
  rw [h.hostVa_eq hpa hb hbpa, h.hostVa_eq (by omega) hb ⟨by omega, by omega⟩]
  omega

theorem hostVa_inj (h : Backed block pages) (hpa : pa < pages * 4096) (heq : hostVa block pa' = hostVa block pa) :
    pa' = pa := by
  obtain ⟨b, hb, hva, hbpa⟩ := h.find hpa
  rw [h.hostVa_eq hpa hb hbpa] at heq
  unfold Block.Holds at hbpa
  cases hfind : block.find? fun b => decide (b.Holds pa') with
  | none =>
    simp only [hostVa, hfind] at heq
    omega
  | some c =>
    have hcpa : c.Holds pa' := by simpa using List.find?_some hfind
    have hc := List.mem_of_find?_eq_some hfind
    simp only [hostVa, hfind] at heq
    unfold Block.Holds at hcpa
    by_cases hbc : b = c
    · subst hbc
      omega
    · have hapart := h.apart.forall hb hc hbc
      unfold Block.Apart at hapart
      omega

end Backed

theorem pseudoFrameVa_backed (h : Backed k.block k.backedPages) {pfn : Nat} (hpfn : pfn < k.backedPages) :
    ∃ hit, k.pseudoFrameVa pfn = (hostVa k.block (pfn * 4096), { k with lastHit := hit }) ∧
      hostVa k.block (pfn * 4096) ≠ 0 := by
  obtain ⟨b, hb, hit, hva, hholds, heq⟩ := pseudoFrameVa_block h.stacked hpfn h.pages_lt
  have hbytes := (h.aligned b hb).2.2
  have haddr : blockAddress b (pfn * 4096) = hostVa k.block (pfn * 4096) := by
    rw [h.hostVa_eq (Nat.mul_lt_mul_of_pos_right hpfn (by decide)) hb hholds, blockAddress, ulong_of_lt (by omega)]
  refine ⟨hit, by rw [heq, haddr], ?_⟩
  rw [← haddr, blockAddress]
  omega

theorem pseudoFrameVa_beyond {pfn : Nat} (hpfn : k.backedPages ≤ pfn) : k.pseudoFrameVa pfn = (0, k) := by
  simp [pseudoFrameVa, hpfn]

end MoCoLinux.Kload
