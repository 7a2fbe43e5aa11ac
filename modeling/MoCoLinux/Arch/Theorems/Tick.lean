import MoCoLinux.Arch.Lemmas.Tick

/-!
# A tick is delivered whole or not at all

The words below the frame and the frame itself are less than a page apart, so no two of their bytes have the same offset in
a page: a byte written through one address is read through no other, however the pages are mapped. What remains is how far
the two writes get.
-/

namespace MoCoLinux.Arch.Tick

variable {b b' b₁ : Bytes} {c : Call} {g : Guest} {f f' : Iret}

/-! ## The five words -/

theorem and_two_hundred {w : Nat} : w &&& 0x200 ≠ 0 ↔ w.testBit 9 = true := by
  have h : w &&& 0x200 = (w.testBit 9).toNat * 2 ^ 9 := Nat.and_two_pow w 9
  rw [h]
  cases w.testBit 9 <;> simp

namespace Iret

@[simp] theorem length_bytes (f : Iret) : f.bytes.length = 40 := by simp [bytes]

theorem bytes_inj (h : f.Fits) (h' : f'.Fits) (hb : f.bytes = f'.bytes) : f = f' := by
  have hw : ∀ {w w'}, w < 2 ^ 64 → w' < 2 ^ 64 → LittleEndian.bytes 8 w = LittleEndian.bytes 8 w' → w = w' := by
    intro w w' hw hw' he
    have hbound : 256 ^ 8 = 2 ^ 64 := by decide
    have hword := congrArg LittleEndian.word he
    rwa [LittleEndian.word_bytes, LittleEndian.word_bytes, hbound, Nat.mod_eq_of_lt hw, Nat.mod_eq_of_lt hw'] at hword
  obtain ⟨hb, h₄⟩ := List.append_inj hb (by simp)
  obtain ⟨hb, h₃⟩ := List.append_inj hb (by simp)
  obtain ⟨hb, h₂⟩ := List.append_inj hb (by simp)
  obtain ⟨h₀, h₁⟩ := List.append_inj hb (by simp)
  cases f
  cases f'
  rw [Iret.mk.injEq]
  exact ⟨hw h.1 h'.1 h₀, hw h.2.1 h'.2.1 h₁, hw h.2.2.1 h'.2.2.1 h₂, hw h.2.2.2.1 h'.2.2.2.1 h₃,
    hw h.2.2.2.2 h'.2.2.2.2 h₄⟩

theorem bytes_decode {bs : List UInt8} (h : bs.length = 40) : (decode bs).bytes = bs := by
  have hw : ∀ k, k + 8 ≤ 40 →
      LittleEndian.bytes 8 (LittleEndian.word ((bs.drop k).take 8)) = (bs.drop k).take 8 := by
    intro k hk
    have hlen : ((bs.drop k).take 8).length = 8 := by simp; omega
    have hb := LittleEndian.bytes_word ((bs.drop k).take 8)
    rwa [hlen] at hb
  have hsplit : ∀ k, (bs.drop k).take 8 ++ bs.drop (k + 8) = bs.drop k := fun k => by
    rw [← List.drop_drop]
    exact List.take_append_drop 8 _
  have hlast : (bs.drop 32).take 8 = bs.drop 32 := List.take_of_length_le (by simp; omega)
  simp only [decode, bytes, hw 0 (by omega), hw 8 (by omega), hw 16 (by omega), hw 24 (by omega), hw 32 (by omega),
    Nat.mul_zero, Nat.mul_one, Nat.reduceMul, List.append_assoc]
  rw [hlast, hsplit 24, hsplit 16, hsplit 8, hsplit 0, List.drop_zero]

theorem fits_decode {bs : List UInt8} (h : bs.length = 40) : (decode bs).Fits := by
  have hw : ∀ k, k + 8 ≤ 40 → LittleEndian.word ((bs.drop k).take 8) < 2 ^ 64 := by
    intro k hk
    have hlen : ((bs.drop k).take 8).length = 8 := by simp; omega
    have hb := LittleEndian.word_bytes 8 (LittleEndian.word ((bs.drop k).take 8))
    have hbs := LittleEndian.bytes_word ((bs.drop k).take 8)
    rw [hlen] at hbs
    rw [hbs] at hb
    rw [hb]
    exact Nat.mod_lt _ (by decide)
  exact ⟨hw 0 (by omega), hw 8 (by omega), hw 16 (by omega), hw 24 (by omega), hw 32 (by omega)⟩

end Iret

theorem Bytes.Holds.unique {root va : Nat} {bs bs' : List UInt8} (h : b.Holds root va bs) (h' : b.Holds root va bs')
    (hlen : bs.length = bs'.length) : bs = bs' := by
  refine List.ext_getElem? fun k => ?_
  rcases Nat.lt_or_ge k bs.length with hk | hk
  · exact (h k hk).symm.trans (h' k (hlen ▸ hk))
  · rw [List.getElem?_eq_none hk, List.getElem?_eq_none (hlen ▸ hk)]

namespace Call

/-! ## Addresses -/

theorem newsp_spec (c : Call) : c.newsp < 2 ^ 64 ∧ ∃ d, 0x40 ≤ d ∧ d < 0x50 ∧
    (0x40 ≤ c.frameVa ∧ c.frameVa = c.newsp + d ∨ c.frameVa < 0x40 ∧ c.frameVa + 2 ^ 64 = c.newsp + d) := by
  have hlt := c.words.2.2.2
  have hx : ullongSub c.frameVa 0x40 < 2 ^ 64 := Nat.mod_lt _ (by decide)
  have hmask : 0xfffffffffffffff0 = (2 ^ (64 - 4) - 1) <<< 4 := by decide
  have hn : c.newsp = ullongSub c.frameVa 0x40 / 16 * 16 := by
    rw [newsp, hmask]
    exact Bits.and_highMask hx
  rw [hn]
  unfold ullongSub at *
  refine ⟨by omega, 0x40 + (c.frameVa + 2 ^ 64 - 0x40) % 2 ^ 64 % 16, by omega, by omega, ?_⟩
  omega

theorem savedVa_add (c : Call) (k : Nat) : ullong (c.savedVa + k) = ullong (c.frameVa + 0x88 + k) := by
  simp only [savedVa, ullong]
  omega

theorem mem_written_stack {k : Nat} (h : k < 40) : ullong (c.newsp + k) ∈ c.written :=
  List.mem_append_left _ (List.mem_map.2 ⟨k, List.mem_range.2 h, rfl⟩)

theorem mem_written_saved {k : Nat} (h : k < 40) : ullong (c.savedVa + k) ∈ c.written := by
  rw [savedVa_add]
  exact List.mem_append_right _ (List.mem_map.2 ⟨k, List.mem_range.2 h, rfl⟩)

theorem mem_span_stack {k : Nat} (h : k < 40) : ullong (c.newsp + k) ∈ c.span :=
  List.mem_append_left _ (List.mem_map.2 ⟨k, List.mem_range.2 h, rfl⟩)

theorem mem_span_frame {k : Nat} (h : k < 0xb0) : ullong (c.frameVa + k) ∈ c.span :=
  List.mem_append_right _ (List.mem_map.2 ⟨k, List.mem_range.2 h, rfl⟩)

theorem mem_span_saved {k : Nat} (h : k < 40) : ullong (c.savedVa + k) ∈ c.span := by
  rw [savedVa_add, Nat.add_assoc]
  exact mem_span_frame (by omega)

theorem reach_le (c : Call) (phase : Phase) (b : Bytes) (va size : Nat) : c.reach phase b va size ≤ size := by
  unfold reach
  split
  · omega
  · split
    · exact Nat.le_refl _
    · split <;> omega

/-! ## The two writes -/

section Writes

variable {n₁ n₂ : Nat}

theorem Clear.sameTables (hap : c.Clear b) (h₁ : n₁ ≤ 40) (h₂ : n₂ ≤ 40)
    (hw₁ : Wrote (b.translate c.root) b b₁ c.newsp f.bytes n₁)
    (hw₂ : Wrote (b.translate c.root) b₁ b' c.savedVa (c.enter f).bytes n₂) {va : Nat} (hva : va ∈ c.span) :
    SameTables c.root b b' va := by
  intro q hq
  rw [hw₂.frames q fun k hk hp => hap _ (mem_written_saved (by omega)) q hp va hva hq,
    hw₁.frames q fun k hk hp => hap _ (mem_written_stack (by omega)) q hp va hva hq]

/-- What the guest reads after the first `n₁` bytes went to the stack and the first `n₂` into the frame. -/
structure Edited (c : Call) (b b' : Bytes) (f : Iret) (n₁ n₂ : Nat) : Prop where
  stack : ∀ k < n₁, b'.guestByte c.root (c.newsp + k) = f.bytes[k]?
  registers : ∀ k < 0x88, b'.guestByte c.root (c.frameVa + k) = b.guestByte c.root (c.frameVa + k)
  entered : ∀ k < n₂, b'.guestByte c.root (c.frameVa + 0x88 + k) = (c.enter f).bytes[k]?
  rest : ∀ k < 40, n₂ ≤ k → b'.guestByte c.root (c.frameVa + 0x88 + k) = b.guestByte c.root (c.frameVa + 0x88 + k)

theorem edited_of_wrote (hap : c.Clear b) (h₁ : n₁ ≤ 40) (h₂ : n₂ ≤ 40)
    (hw₁ : Wrote (b.translate c.root) b b₁ c.newsp f.bytes n₁)
    (hw₂ : Wrote (b.translate c.root) b₁ b' c.savedVa (c.enter f).bytes n₂) : c.Edited b b' f n₁ n₂ := by
  obtain ⟨-, d, hd, hd', hframe⟩ := c.newsp_spec
  have hT : ∀ va ∈ c.span, b'.translate c.root va = b.translate c.root va := fun va hva =>
    (hap.sameTables h₁ h₂ hw₁ hw₂ hva).translate
  have hoff : ∀ k, (c.savedVa + k) % 4096 = (c.frameVa + 0x88 + k) % 4096 := fun k => by
    simp only [savedVa, ullong]
    omega
  -- a byte of the frame that the second write does not reach is as before
  have hkeep : ∀ k < 0xb0, (∀ j < n₂, k ≠ 0x88 + j) →
      b'.guestByte c.root (c.frameVa + k) = b.guestByte c.root (c.frameVa + k) := by
    intro k hk hne
    rw [Bytes.guestByte, Bytes.guestByte, hT _ (mem_span_frame hk)]
    congr 1
    funext pfn
    rw [pageSize, hw₂.miss pfn _ fun j hj hc => hne j hj (by rw [hoff] at hc; omega),
      hw₁.miss pfn _ fun j hj => by omega]
  refine ⟨fun k hk => ?_, fun k hk => hkeep k (by omega) fun j hj => by omega, fun k hk => ?_, fun k hk hn => ?_⟩
  · obtain ⟨pfn, hp⟩ := Option.isSome_iff_exists.1 (hw₁.mapped k hk)
    have hb : b' pfn ((c.newsp + k) % 4096) = f.bytes.getD k 0 := by
      rw [hw₂.miss pfn _ fun j hj hc => by rw [hoff] at hc; omega]
      exact hw₁.hit k hk pfn hp
    rw [Bytes.guestByte, hT _ (mem_span_stack (by omega)), hp, Option.map_some, pageSize, hb,
      List.getD_eq_getElem?_getD, List.getElem?_eq_getElem (by simp; omega)]
    rfl
  · obtain ⟨pfn, hp⟩ := Option.isSome_iff_exists.1 (hw₂.mapped k hk)
    have hb := hw₂.hit k hk pfn hp
    rw [hoff] at hb
    rw [savedVa_add] at hp
    rw [Bytes.guestByte, Nat.add_assoc, hT _ (mem_span_frame (by omega)), ← Nat.add_assoc, hp, Option.map_some,
      pageSize, hb, List.getD_eq_getElem?_getD, List.getElem?_eq_getElem (by simp; omega)]
    rfl
  · have := hkeep (0x88 + k) (by omega) fun j hj => by omega
    rwa [← Nat.add_assoc] at this

end Writes

/-! ## One call -/

theorem interrupted_spec (h : c.interrupted b = some f) : ∃ vif bs,
    c.readCr3 .vif b c.vifVa 8 = some vif ∧ LittleEndian.word vif &&& 0x200 ≠ 0 ∧
      c.readCr3 .frame b c.savedVa 40 = some bs ∧ f = Iret.decode bs ∧ f.rflags &&& 0x200 ≠ 0 ∧ f.cs &&& 3 = 3 := by
  unfold interrupted at h
  split at h
  · cases h
  · next vif hv =>
      split at h
      · cases h
      · next hset =>
          split at h
          · cases h
          · next bs hbs =>
              simp only at h
              split at h
              · cases h
              · next hfl =>
                  split at h
                  · cases h
                  · next hcs =>
                      cases h
                      exact ⟨vif, bs, hv, hset, hbs, rfl, hfl, by simpa using hcs⟩

theorem injectTick_of_not_due (h : ¬ c.Due g) : (c.injectTick g).bytes = g.bytes := by
  unfold injectTick
  split
  · rfl
  · split
    · rfl
    · split
      · rfl
      · split
        · rfl
        · split
          · rfl
          · next h₁ h₂ h₃ h₄ h₅ =>
              refine absurd ⟨fun hc => h₁ (.inl hc), fun hc => h₁ (.inr hc), h₂, h₃, ?_⟩ h
              cases hp : c.guestIpiPending g.bytes with
              | true => exact .inl rfl
              | false => exact .inr ⟨fun hc => h₄ ⟨hp, hc⟩, Nat.le_of_not_lt fun hc => h₅ ⟨hp, hc⟩⟩

theorem injectTick_of_due (h : c.Due g) :
    (c.injectTick g).bytes = ((c.interrupted g.bytes).map fun f => (c.deliver f g.bytes).2).getD g.bytes := by
  obtain ⟨h₁, h₂, h₃, h₄, hdue⟩ := h
  have hn : ¬ (c.guestIpiPending g.bytes = false ∧ g.last = 0) := by
    rintro ⟨hp, hl⟩
    rcases hdue with hd | hd
    · rw [hp] at hd
      cases hd
    · exact hd.1 hl
  have hn' : ¬ (c.guestIpiPending g.bytes = false ∧ ullongSub c.now g.last < period) := by
    rintro ⟨hp, hl⟩
    rcases hdue with hd | hd
    · rw [hp] at hd
      cases hd
    · omega
  rw [injectTick, if_neg (by simp [h₁, h₂]), if_neg h₃, if_neg h₄, if_neg hn, if_neg hn']
  cases c.interrupted g.bytes with
  | none => rfl
  | some f =>
    rcases hd : c.deliver f g.bytes with ⟨_ | _, b⟩ <;> simp [hd]

theorem enter_fits (c : Call) (f : Iret) : (c.enter f).Fits :=
  ⟨c.words.1, c.words.2.1, Nat.lt_of_le_of_lt Nat.and_le_right (by decide), c.newsp_spec.1, c.words.2.2.1⟩

theorem enter_masked (c : Call) (f : Iret) : (c.enter f).rflags.testBit 9 = false := by
  have hm : Nat.testBit 0xfffffffffffffdff 9 = false := by decide
  simp [enter, Nat.testBit_and, hm]

theorem deliver_edited (hdue : c.Due g) (hl : c.NoLarge g) (hap : c.Clear g.bytes)
    (hf : c.interrupted g.bytes = some f) :
    c.Edited g.bytes (c.deliver f g.bytes).2 f (c.reach .stack g.bytes c.newsp 40)
      (if c.reach .stack g.bytes c.newsp 40 = 40 then c.reach .entry g.bytes c.savedVa 40 else 0) := by
  obtain ⟨vif, bs, hv, hset, hbs, -⟩ := interrupted_spec hf
  have hsaved : c.savedVa < 2 ^ 64 := Nat.mod_lt _ (by decide)
  have hnewsp := c.newsp_spec.1
  have hself : ∀ {va}, va < 2 ^ 64 → ullong (va + 0) = va := fun h => ullong_of_lt h
  have hn₁ := c.reach_le .stack g.bytes c.newsp 40
  have hstack := c.writeCr3_wrote .stack f.bytes hnewsp (by simp) (by simp) (by simpa using hl.stack hdue f hf)
    fun hs pfn hp => hap _ (mem_written_stack (by omega : 0 < 40)) pfn (by rwa [hself hnewsp]) _
      (mem_span_stack (k := 4096 - c.newsp % 4096) (by rw [Iret.length_bytes] at hs; omega))
  rw [Iret.length_bytes] at hstack
  rcases hd : c.writeCr3 .stack g.bytes c.newsp f.bytes with ⟨ok, b₁⟩
  rw [hd] at hstack
  obtain ⟨hw₁, hok⟩ := hstack
  cases ok with
  | false =>
    rw [if_neg fun hc => Bool.false_ne_true (hok.2 hc), deliver, hd]
    exact edited_of_wrote hap hn₁ (by omega) hw₁ (Wrote.none ..)
  | true =>
    have hsame : ∀ {va}, va ∈ c.span → SameTables c.root g.bytes b₁ va := fun hva =>
      hap.sameTables hn₁ (Nat.zero_le 40) hw₁ (Wrote.none _ _ _ (c.enter f).bytes) hva
    have h₀ : SameTables c.root g.bytes b₁ c.savedVa := by
      have := hsame (mem_span_saved (c := c) (by omega : 0 < 40))
      rwa [hself hsaved] at this
    have h₁ : 4096 < c.savedVa % 4096 + 40 → SameTables c.root g.bytes b₁ (nextPage c.savedVa) := fun hs =>
      hsame (mem_span_saved (k := 4096 - c.savedVa % 4096) (by omega))
    have hread := readCr3_holds hsaved (by decide) (by decide) (hl.frame hdue vif hv hset) hbs
    have hentry := c.writeCr3_wrote (b := b₁) .entry (c.enter f).bytes hsaved (by simp) (by simp)
      (fun a ha => ?_) fun hs pfn hp => ?_
    · rw [Iret.length_bytes] at hentry
      have hreach : c.reach .entry b₁ c.savedVa 40 = c.reach .entry g.bytes c.savedVa 40 := by
        simp only [reach, h₀.resolve]
        by_cases hfit : c.savedVa % pageSize + 40 ≤ pageSize
        · simp only [hfit, if_true]
        · simp only [(h₁ (Nat.lt_of_not_le hfit)).resolve]
      rw [if_pos (hok.1 rfl), deliver, hd]
      have hn₂ := c.reach_le .entry g.bytes c.savedVa 40
      refine edited_of_wrote hap hn₁ hn₂ hw₁ (hreach ▸ hentry.1.congr fun k hk => ?_)
      exact (hsame (mem_span_saved (by omega))).translate.symm
    -- the lookups are those of the read before
    · rw [Iret.length_bytes, walks, h₀.resolve] at ha
      have hw : ∀ a, a = c.savedVa ∨ a = nextPage c.savedVa ∧ 4096 < c.savedVa % 4096 + 40 →
          a ∈ c.walks .frame g.bytes c.savedVa 40 := by
        rintro a (rfl | ⟨rfl, hs⟩)
        · unfold walks
          split <;> simp
        · rw [walks, if_neg (by simp only [pageSize, not_or]; exact ⟨by omega, hread.2.1⟩)]
          simp
      have hsm := hl.frame hdue vif hv hset
      split at ha
      · rw [List.mem_singleton.1 ha]
        exact h₀.small (hsm _ (hw _ (.inl rfl)))
      · next hs =>
          have hs' : 4096 < c.savedVa % 4096 + 40 := Nat.lt_of_not_le fun hc => hs (.inl hc)
          rcases List.mem_pair.1 ha with rfl | rfl
          · exact h₀.small (hsm _ (hw _ (.inl rfl)))
          · exact (h₁ hs').small (hsm _ (hw _ (.inr ⟨rfl, hs'⟩)))
    · rw [Iret.length_bytes] at hs
      rw [(h₁ hs).tables]
      rw [h₀.translate] at hp
      exact hap _ (mem_written_saved (by omega : 0 < 40)) pfn (by rwa [hself hsaved]) _
        (mem_span_saved (k := 4096 - c.savedVa % 4096) (by omega))

namespace Edited

variable {n₁ n₂ : Nat}

theorem unchanged_iff (h : c.Edited b b' f n₁ n₂) (hs : b.Holds c.root (c.frameVa + 0x88) f.bytes) (hn : n₂ ≤ 40) :
    c.Unchanged b b' ↔ (c.enter f).bytes.take n₂ = f.bytes.take n₂ := by
  constructor
  · intro hu
    refine List.ext_getElem? fun k => ?_
    simp only [List.getElem?_take]
    split
    · next hk =>
        have hk' := hu (0x88 + k) (by omega)
        rw [← Nat.add_assoc] at hk'
        rw [← h.entered k hk, hk', hs k (by simp; omega)]
    · rfl
  · intro ht k hk
    rcases Nat.lt_or_ge k 0x88 with hlt | hge
    · exact h.registers k hlt
    · obtain ⟨j, rfl⟩ := Nat.exists_eq_add_of_le hge
      rw [← Nat.add_assoc]
      rcases Nat.lt_or_ge j n₂ with hj | hj
      · have hget := congrArg (fun l => l[j]?) ht
        simp only [List.getElem?_take, hj, if_true] at hget
        rw [h.entered j hj, hget, hs j (by simp; omega)]
      · exact h.rest j (by omega) hj

theorem entered_iff (h : c.Edited b b' f n₁ n₂) (hs : b.Holds c.root (c.frameVa + 0x88) f.bytes) :
    b'.Holds c.root (c.frameVa + 0x88) (c.enter f).bytes ↔ (c.enter f).bytes.drop n₂ = f.bytes.drop n₂ := by
  constructor
  · intro he
    refine List.ext_getElem? fun k => ?_
    simp only [List.getElem?_drop]
    rcases Nat.lt_or_ge (n₂ + k) 40 with hk | hk
    · rw [← he _ (by simpa using hk), h.rest _ hk (by omega), hs _ (by simpa using hk)]
    · rw [List.getElem?_eq_none (by simpa using hk), List.getElem?_eq_none (by simpa using hk)]
  · intro hd k hk
    rw [Iret.length_bytes] at hk
    rcases Nat.lt_or_ge k n₂ with hlt | hge
    · exact h.entered k hlt
    · have hget := congrArg (fun l => l[k - n₂]?) hd
      simp only [List.getElem?_drop, Nat.add_sub_cancel' hge] at hget
      rw [h.rest k hk hge, hs k (by simpa using hk), hget]

end Edited

theorem saved_holds (hdue : c.Due g) (hl : c.NoLarge g) (hf : c.interrupted g.bytes = some f) :
    f.Fits ∧ g.bytes.Holds c.root (c.frameVa + 0x88) f.bytes := by
  obtain ⟨vif, bs, hv, hset, hbs, rfl, -⟩ := interrupted_spec hf
  have hlt : c.savedVa < 2 ^ 64 := Nat.mod_lt _ (by decide)
  obtain ⟨hlen, -, hread⟩ := readCr3_holds hlt (by decide) (by decide) (hl.frame hdue vif hv hset) hbs
  refine ⟨Iret.fits_decode hlen, fun k hk => ?_⟩
  rw [Iret.bytes_decode hlen] at hk ⊢
  have hoff : (c.savedVa + k) % 4096 = (c.frameVa + 0x88 + k) % 4096 := by
    simp only [savedVa, ullong]
    omega
  rw [← hread k hk, Bytes.guestByte, Bytes.guestByte, savedVa_add, pageSize, hoff]

theorem vif_holds (hdue : c.Due g) (hl : c.NoLarge g) (hf : c.interrupted g.bytes = some f) :
    ∃ vif, g.bytes.Holds c.root c.vifVa (LittleEndian.bytes 8 vif) ∧ vif.testBit 9 = true := by
  obtain ⟨vif, -, hv, hset, -⟩ := interrupted_spec hf
  obtain ⟨hlen, -, hread⟩ := readCr3_holds (Nat.mod_lt _ (by decide)) (by decide) (by decide) (hl.vif hdue) hv
  have hw := LittleEndian.bytes_word vif
  rw [hlen] at hw
  exact ⟨LittleEndian.word vif, hw.symm ▸ hread, and_two_hundred.1 hset⟩

theorem enter_ne (hf : c.interrupted b = some f) (hfits : f.Fits) : (c.enter f).bytes ≠ f.bytes := by
  intro hb
  obtain ⟨-, -, -, -, -, -, hflag, -⟩ := interrupted_spec hf
  have hm := c.enter_masked f
  rw [Iret.bytes_inj (c.enter_fits f) hfits hb, and_two_hundred.1 hflag] at hm
  cases hm

/-- The call left the frame alone or delivered a tick exactly when its write into the frame was not torn by a page
boundary and there was room below the frame. -/
theorem injectTick_whole_iff (hl : c.NoLarge g) (hap : c.Apart g) :
    c.Whole g.bytes (c.injectTick g).bytes ↔ ¬ c.Torn g ∧ ¬ c.Wrapped g := by
  by_cases hdue : c.Due g
  case neg =>
    rw [injectTick_of_not_due hdue]
    exact ⟨fun _ => ⟨fun h => hdue h.1, fun h => hdue h.1⟩, fun _ => .inl fun _ _ => rfl⟩
  rw [injectTick_of_due hdue]
  cases hf : c.interrupted g.bytes with
  | none =>
    refine ⟨fun _ => ⟨?_, ?_⟩, fun _ => .inl fun _ _ => rfl⟩
    · rintro ⟨-, f, h, -⟩
      rw [hf] at h
      cases h
    · rintro ⟨-, -, f, h, -⟩
      rw [hf] at h
      cases h
  | some f =>
    obtain ⟨hfits, hsaved⟩ := saved_holds hdue hl hf
    have hne := enter_ne hf hfits
    have hE := deliver_edited hdue hl (hap hdue f hf) hf
    obtain ⟨-, d, hd, hd', hframe⟩ := c.newsp_spec
    simp only [Option.map_some, Option.getD_some]
    have hsome : ∀ {f'}, c.interrupted g.bytes = some f' → f' = f := fun h => Option.some.inj (h.symm.trans hf)
    by_cases hn₁ : c.reach .stack g.bytes c.newsp 40 = 40
    case neg =>
      -- the words did not all fit on the stack, and the frame was not written
      rw [if_neg hn₁] at hE
      refine ⟨fun _ => ⟨?_, ?_⟩, fun _ => .inl ((hE.unchanged_iff hsaved (by omega)).2 rfl)⟩
      · rintro ⟨-, f', -, h, -⟩
        exact hn₁ h
      · rintro ⟨-, -, f', -, h, -⟩
        exact hn₁ h
    have hn₂ := c.reach_le .entry g.bytes c.savedVa 40
    have hshort : c.frameVa < 0x40 → c.reach .entry g.bytes c.savedVa 40 = 0 ∨
        c.reach .entry g.bytes c.savedVa 40 = 40 := by
      intro h
      have hfit : c.savedVa % pageSize + 40 ≤ pageSize := by
        simp only [savedVa, ullong, pageSize]
        omega
      rw [reach, if_pos hfit]
      split
      · exact .inl rfl
      · exact .inr rfl
    rw [if_pos hn₁, hn₁] at hE
    generalize hr : c.reach .entry g.bytes c.savedVa 40 = n₂ at hE hn₂ hshort
    constructor
    · rintro hw
      refine ⟨?_, ?_⟩
      · rintro ⟨-, f', hf', -, htake, hdrop⟩
        obtain rfl := hsome hf'
        rw [hr] at htake hdrop
        rcases hw with hu | ⟨f', vif, hdel⟩
        · exact htake ((hE.unchanged_iff hsaved hn₂).1 hu)
        · have hb := hsaved.unique hdel.saved (by simp)
          obtain rfl := Iret.bytes_inj hfits hdel.fits hb
          exact hdrop ((hE.entered_iff hsaved).1 hdel.entered)
      · rintro ⟨-, hlow, f', hf', -, hall⟩
        obtain rfl := hsome hf'
        rw [hr] at hall
        rcases hw with hu | ⟨f', vif, hdel⟩
        · have ht := (hE.unchanged_iff hsaved hn₂).1 hu
          rw [hall, List.take_of_length_le (by simp), List.take_of_length_le (by simp)] at ht
          exact hne ht
        · have hbelow : c.newsp + 40 ≤ c.frameVa := hdel.below
          omega
    · rintro ⟨htorn, hwrapped⟩
      by_cases htake : (c.enter f).bytes.take n₂ = f.bytes.take n₂
      · exact .inl ((hE.unchanged_iff hsaved hn₂).2 htake)
      have hdrop : (c.enter f).bytes.drop n₂ = f.bytes.drop n₂ := by
        by_contra hc
        exact htorn ⟨hdue, f, hf, hn₁, by rw [hr]; exact htake, by rw [hr]; exact hc⟩
      have hroom : 0x40 ≤ c.frameVa := by
        by_contra hlow
        rcases hshort (by omega) with h0 | h40
        · exact htake (by rw [h0]; rfl)
        · exact hwrapped ⟨hdue, by omega, f, hf, hn₁, hr.trans h40⟩
      obtain ⟨vif, hflag, hvif⟩ := vif_holds hdue hl hf
      obtain ⟨-, -, -, -, -, -, hrflags, hcs⟩ := interrupted_spec hf
      have hring : f.cs % 4 = 3 := (Nat.and_two_pow_sub_one_eq_mod f.cs 2).symm.trans hcs
      refine .inr ⟨f, vif, hdue.2.2.1, hfits, hsaved, hring, and_two_hundred.1 hrflags, hflag, hvif, hE.registers,
        (hE.entered_iff hsaved).2 hdrop, c.kernel, c.enter_masked f, fun k hk => hE.stack k (by simpa using hk), ?_⟩
      show c.newsp + 40 ≤ c.frameVa
      omega

instance (c : Call) (b : Bytes) (va : Nat) : Decidable (c.Small b va) := inferInstanceAs (Decidable (_ → _))

theorem NoLarge.of_walks (h : ∀ va ∈ c.walks .vif g.bytes c.vifVa 8 ++ c.walks .frame g.bytes c.savedVa 40 ++
    c.walks .stack g.bytes c.newsp 40, c.Small g.bytes va) : c.NoLarge g where
  vif _ va hva := h va (by simp [hva])
  frame _ _ _ _ va hva := h va (by simp [hva])
  stack _ _ _ va hva := h va (by simp [hva])

end Call

/-! ## A frame in two pages -/

/-- Pages 1 to 3 of the guest are the frames 10 to 12. The stub's frame ends in page 2, with RSP and SS. -/
def twoPageWords : List ((Nat × Nat) × Nat) :=
  [((1, 0), 0x2003), ((2, 0), 0x3003), ((3, 0), 0x4003), ((4, 1), 0xa003), ((4, 2), 0xb003), ((4, 3), 0xc003),
    ((10, 0x1fd), 0x400000), ((10, 0x1fe), 0x33), ((10, 0x1ff), 0x202), ((11, 0), 0x7fff0000), ((11, 1), 0x2b),
    ((12, 0), 0x200)]

def twoPageGuest : Guest :=
  ⟨fun pfn o => UInt8.ofNat ((twoPageWords.lookup (pfn, o / 8)).getD 0 / 256 ^ (o % 8)), 1, 0⟩

theorem twoPageCall_words :
    0xffffffff81000000 < 2 ^ 64 ∧ 0x10 < 2 ^ 64 ∧ 0x18 < 2 ^ 64 ∧ 0x1f60 < 2 ^ 64 := by decide

def twoPageCall (fails : Phase → Nat → Bool) : Call :=
  ⟨0xffffffff81000000, 0x3000, 0, 0, 0x1000, 0x10, 0x18, 0x1f60, 1, 1000000, fails, fun _ => true, twoPageCall_words,
    ⟨rfl, rfl⟩⟩

def secondFails (phase : Phase) (k : Nat) : Bool := decide (phase = .entry ∧ k = 1)

theorem injectTick_torn : (twoPageCall secondFails).NoLarge twoPageGuest ∧
    ¬ (twoPageCall secondFails).Whole twoPageGuest.bytes ((twoPageCall secondFails).injectTick twoPageGuest).bytes := by
  refine ⟨Call.NoLarge.of_walks (by decide +kernel), ?_⟩
  rintro (hu | ⟨f, vif, hd⟩)
  · exact absurd (hu 0x90 (by decide)) (by decide +kernel)
  · -- the handler's CS, but the interrupted RSP
    have hrsp := hd.entered 24 (by simp)
    have henter : ((twoPageCall secondFails).enter f).bytes[24]? = some (.ofNat (twoPageCall secondFails).newsp) := rfl
    rw [henter] at hrsp
    exact absurd hrsp (by decide +kernel)

theorem twoPageGuest_apart : (twoPageCall fun _ _ => false).Apart twoPageGuest := by
  have hpages : ∀ va ∈ (twoPageCall fun _ _ => false).written,
      twoPageGuest.bytes.translate 1 va ∈ [some 10, some 11] := by decide +kernel
  have htables : ∀ va ∈ (twoPageCall fun _ _ => false).span, twoPageGuest.bytes.tables 1 va = [1, 2, 3, 4] := by
    decide +kernel
  intro _ _ _ va hva pfn hp va' hva'
  have hpage := hpages va hva
  rw [show twoPageGuest.bytes.translate 1 va = some pfn from hp] at hpage
  rw [show twoPageGuest.bytes.tables (twoPageCall fun _ _ => false).root va' = [1, 2, 3, 4] from htables va' hva']
  simp only [List.mem_cons, Option.some.injEq, List.not_mem_nil, or_false] at hpage ⊢
  omega

theorem injectTick_whole_iff_twoPages : (twoPageCall fun _ _ => false).Whole twoPageGuest.bytes
    ((twoPageCall fun _ _ => false).injectTick twoPageGuest).bytes := by
  refine (Call.injectTick_whole_iff (.of_walks (by decide +kernel)) twoPageGuest_apart).2 ⟨?_, ?_⟩
  · rintro ⟨-, f, -, -, -, hdrop⟩
    have hreach : (twoPageCall fun _ _ => false).reach .entry twoPageGuest.bytes
        (twoPageCall fun _ _ => false).savedVa 40 = 40 := by decide +kernel
    rw [hreach] at hdrop
    exact hdrop (by simp [List.drop_of_length_le])
  · rintro ⟨-, hlow, -⟩
    exact absurd hlow (by decide)

end MoCoLinux.Arch.Tick
