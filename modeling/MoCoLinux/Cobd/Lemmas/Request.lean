import MoCoLinux.Cobd.Request
import MoCoLinux.Kload.Lemmas.Memory

/-!
# Block requests: the loops
-/

namespace MoCoLinux.Cobd

open Kload (Backed hostVa)

variable {dev : Device} {d : Drive} {write : Bool} {io io₁ io₂ : Io} {new new₁ new₂ : List Transfer}
  {offset pa size n : Nat}

theorem and_page (pa : Nat) : pa &&& (Arch.pageSize - 1) = pa % 4096 := Nat.and_two_pow_sub_one_eq_mod pa 12

theorem shift_page (pa : Nat) : pa >>> 12 = pa / 4096 := Nat.shiftRight_eq_div_pow pa 12

theorem chunk_spec (pa : Nat) (hsize : size ≠ 0) :
    0 < chunk pa size ∧ chunk pa size ≤ size ∧ pa % 4096 + chunk pa size ≤ 4096 := by
  unfold chunk
  rw [and_page, show Arch.pageSize = 4096 from rfl]
  split <;> omega

/-- The calls made between two states: only the lookups' cache changed in the loader, and every call was inside. -/
structure Carried (d : Drive) (write : Bool) (io io' : Io) (new : List Transfer) : Prop where
  issued : io'.issued = io.issued ++ new
  block : io'.k.block = io.k.block
  backed : io'.k.backedPages = io.k.backedPages
  inside : ∀ t ∈ new, t.Inside d io.k ∧ t.write = write

/-- The calls moved these bytes of guest RAM, one by one, from `offset` on. -/
structure Exactly (dev : Device) (io io' : Io) (new : List Transfer) (offset : Nat) (pas : List Nat) : Prop where
  cells : new.flatMap Transfer.cells = (List.range' offset pas.length).zip (pas.map (hostVa io.k.block))
  ram : ∀ pa ∈ pas, pa < io.k.backedPages * 4096
  mem : dev.Local → ∀ a, (∀ pa ∈ pas, a ≠ hostVa io.k.block pa) → io'.mem a = io.mem a

def Io.atHit (io : Io) (hit : Nat) : Io := { io with k := { io.k with lastHit := hit } }

theorem Carried.lookup (d : Drive) (write : Bool) (io : Io) (hit : Nat) : Carried d write io (io.atHit hit) [] :=
  ⟨(List.append_nil _).symm, rfl, rfl, nofun⟩

theorem Carried.refl (d : Drive) (write : Bool) (io : Io) : Carried d write io io [] := .lookup d write io io.k.lastHit

theorem Carried.trans (h₁ : Carried d write io io₁ new₁) (h₂ : Carried d write io₁ io₂ new₂) :
    Carried d write io io₂ (new₁ ++ new₂) := by
  refine ⟨?_, h₂.block.trans h₁.block, h₂.backed.trans h₁.backed, fun t ht => ?_⟩
  · rw [h₂.issued, h₁.issued, List.append_assoc]
  · rcases List.mem_append.mp ht with ht | ht
    · exact h₁.inside t ht
    · obtain ⟨⟨hdevice, hpage⟩, hwrite⟩ := h₂.inside t ht
      rw [h₁.block, h₁.backed] at hpage
      exact ⟨⟨hdevice, hpage⟩, hwrite⟩

theorem Exactly.of_lookup {hit : Nat} {pas : List Nat} (h : Exactly dev (io.atHit hit) io₁ new offset pas) :
    Exactly dev io io₁ new offset pas := { h with }

theorem Exactly.nil (dev : Device) (io : Io) (offset : Nat) : Exactly dev io io [] offset [] :=
  ⟨rfl, nofun, fun _ _ _ => rfl⟩

theorem Exactly.append {pas₁ pas₂ : List Nat} (hc : Carried d write io io₁ new₁)
    (h₁ : Exactly dev io io₁ new₁ offset pas₁) (h₂ : Exactly dev io₁ io₂ new₂ (offset + pas₁.length) pas₂) :
    Exactly dev io io₂ (new₁ ++ new₂) offset (pas₁ ++ pas₂) := by
  obtain ⟨hcells, hram, hmem⟩ := h₂
  rw [hc.block] at hcells hmem
  rw [hc.backed] at hram
  refine ⟨?_, fun pa hpa => ?_, fun hlocal a ha => ?_⟩
  · rw [List.flatMap_append, h₁.cells, hcells, List.map_append, List.length_append, ← List.range'_append_1,
      List.zip_append (by simp)]
  · exact (List.mem_append.mp hpa).elim (h₁.ram pa) (hram pa)
  · rw [hmem hlocal a fun pa hpa => ha pa (List.mem_append.mpr (.inr hpa))]
    exact h₁.mem hlocal a fun pa hpa => ha pa (List.mem_append.mpr (.inl hpa))

theorem hostVa_page (h : Backed io.k.block io.k.backedPages) (hpa : pa / 4096 < io.k.backedPages) :
    hostVa io.k.block (pa / 4096 * 4096) + pa % 4096 = hostVa io.k.block pa := by
  rw [← h.hostVa_add (by omega) (by omega), Nat.div_add_mod']

theorem hostVa_run (h : Backed io.k.block io.k.backedPages) (hpa : pa / 4096 < io.k.backedPages)
    (hn : pa % 4096 + n ≤ 4096) :
    (List.range' pa n).map (hostVa io.k.block) = List.range' (hostVa io.k.block pa) n := by
  refine List.ext_getElem (by simp) fun j hj _ => ?_
  simp only [List.length_map, List.length_range'] at hj
  simp only [List.getElem_map, List.getElem_range', Nat.one_mul]
  exact h.hostVa_add (by omega) (by omega)

def Io.call (dev : Device) (io : Io) (hit : Nat) (t : Transfer) : Io :=
  ⟨{ io.k with lastHit := hit }, (dev io.issued t io.mem).2, io.issued ++ [t]⟩

theorem call_carried (dev : Device) (write : Bool) (h : Backed io.k.block io.k.backedPages)
    (hpa : pa / 4096 < io.k.backedPages) (hn : pa % 4096 + n ≤ 4096) (hdevice : offset + n ≤ d.size) (hit : Nat) :
    Carried d write io (io.call dev hit ⟨offset, hostVa io.k.block pa, n, write⟩)
      [⟨offset, hostVa io.k.block pa, n, write⟩] := by
  refine ⟨rfl, rfl, rfl, fun t ht => ?_⟩
  cases List.mem_singleton.mp ht
  have hva := hostVa_page h hpa
  exact ⟨⟨hdevice, pa / 4096, hpa, by simp only; omega, by simp only; omega⟩, rfl⟩

theorem call_exactly (dev : Device) (write : Bool) (offset : Nat) (h : Backed io.k.block io.k.backedPages)
    (hpa : pa / 4096 < io.k.backedPages) (hn : pa % 4096 + n ≤ 4096) (hit : Nat) :
    Exactly dev io (io.call dev hit ⟨offset, hostVa io.k.block pa, n, write⟩)
      [⟨offset, hostVa io.k.block pa, n, write⟩] offset (List.range' pa n) := by
  refine ⟨?_, fun a ha => ?_, fun hlocal a ha => ?_⟩
  · rw [hostVa_run h hpa hn]
    simp [Transfer.cells]
  · rw [List.mem_range'_1] at ha
    omega
  · refine hlocal io.issued _ io.mem a ?_
    by_contra hin
    simp only [not_or, Nat.not_lt, Nat.not_le] at hin
    refine ha (pa + (a - hostVa io.k.block pa)) (List.mem_range'_1.mpr ⟨by omega, by omega⟩) ?_
    rw [h.hostVa_add (by omega) (by omega)]
    omega

theorem requestLoop_spec (rounds : Nat) : ∀ (io : Io) (offset pa size : Nat), Backed io.k.block io.k.backedPages →
    size ≤ rounds → offset + size ≤ d.size → ∃ new,
      Carried d write io (requestLoop dev write rounds io offset pa size).2 new ∧
      ((requestLoop dev write rounds io offset pa size).1 = .ok →
        Exactly dev io (requestLoop dev write rounds io offset pa size).2 new offset (List.range' pa size)) := by
  induction rounds with
  | zero =>
    intro io offset pa size _ hsize _
    obtain rfl := Nat.le_zero.mp hsize
    exact ⟨[], .refl d write io, fun _ => .nil dev io offset⟩
  | succ rounds ih =>
    intro io offset pa size hback hsize hdevice
    rw [requestLoop]
    by_cases hzero : size = 0
    · subst hzero
      exact ⟨[], .refl d write io, fun _ => .nil dev io offset⟩
    rw [if_neg hzero]
    obtain ⟨hpos, hle, hpage⟩ := chunk_spec pa hzero
    rw [shift_page, and_page]
    by_cases hpa : pa / 4096 < io.k.backedPages
    case neg =>
      rw [Kload.pseudoFrameVa_beyond (Nat.not_lt.mp hpa)]
      exact ⟨[], .refl d write io, nofun⟩
    obtain ⟨hit, hfound, hva⟩ := Kload.pseudoFrameVa_backed hback hpa
    rw [hfound]
    simp only [if_neg hva, hostVa_page hback hpa]
    have hinside : offset + chunk pa size ≤ d.size := by omega
    have hcarried := call_carried dev write hback hpa hpage hinside hit
    have hexactly := call_exactly dev write offset hback hpa hpage hit
    by_cases hrc : (dev io.issued ⟨offset, hostVa io.k.block pa, chunk pa size, write⟩ io.mem).1 = .ok
    case neg =>
      rw [if_neg hrc]
      exact ⟨_, hcarried, fun hok => absurd hok hrc⟩
    rw [if_pos hrc]
    -- neither the offset nor the address wraps around: one is inside the device, the other inside guest RAM
    have hoffset : ullong (offset + chunk pa size) = offset + chunk pa size :=
      ullong_of_lt (Nat.lt_of_le_of_lt hinside d.size_lt)
    have haddress : ullong (pa + chunk pa size) = pa + chunk pa size := by
      have := hback.pages_lt
      exact ullong_of_lt (by omega)
    rw [hoffset, haddress]
    obtain ⟨new, hcarried', hexactly'⟩ :=
      ih (io.call dev hit ⟨offset, hostVa io.k.block pa, chunk pa size, write⟩) (offset + chunk pa size)
        (pa + chunk pa size) (size - chunk pa size) hback (by omega) (by omega)
    refine ⟨_, hcarried.trans hcarried', fun hok => ?_⟩
    have hsplit : List.range' pa size =
        List.range' pa (chunk pa size) ++ List.range' (pa + chunk pa size) (size - chunk pa size) := by
      rw [List.range'_append_1, Nat.add_sub_cancel' hle]
    rw [hsplit]
    refine hexactly.append hcarried ?_
    rw [List.length_range']
    exact hexactly' hok

theorem request_spec (dev : Device) (write : Bool) (io : Io) {units : Nat → Option Drive} {unit : Int}
    (hdrive : drive units unit = some d) (hback : Backed io.k.block io.k.backedPages) (offset pa size : Nat) : ∃ new,
      Carried d write io (request dev units unit offset pa size write io).2 new ∧
      ((request dev units unit offset pa size write io).1 = .ok → (size ≠ 0 → offset + size ≤ d.size) ∧
        Exactly dev io (request dev units unit offset pa size write io).2 new offset (List.range' pa size)) := by
  simp only [request, hdrive]
  split
  case isTrue hzero =>
    subst hzero
    exact ⟨[], .refl d write io, fun _ => ⟨fun h => absurd rfl h, .nil dev io offset⟩⟩
  case isFalse hzero =>
    split
    case isTrue => exact ⟨[], .refl d write io, nofun⟩
    case isFalse hinside =>
      have hinside : offset + size ≤ d.size := by omega
      obtain ⟨new, hcarried, hexactly⟩ :=
        requestLoop_spec size io offset pa size hback (Nat.le_refl size) hinside
      exact ⟨new, hcarried, fun hok => ⟨fun _ => hinside, hexactly hok⟩⟩

theorem readLoop_spec {dpa : Nat} (rounds : Nat) : ∀ (io : Io) (got : Nat), Backed io.k.block io.k.backedPages →
    sgBytes - got ≤ rounds → dpa + got < 2 ^ 64 →
      (∃ hit, (readLoop dpa rounds io got).2 = io.atHit hit) ∧
      ∀ bytes, (readLoop dpa rounds io got).1 = some bytes →
        bytes = (List.range' (dpa + got) (sgBytes - got)).map (fun a => io.mem (hostVa io.k.block a)) ∧
        (got < sgBytes → dpa + got < io.k.backedPages * 4096) := by
  induction rounds with
  | zero =>
    intro io got _ hrounds _
    refine ⟨⟨io.k.lastHit, rfl⟩, fun bytes h => ?_⟩
    cases h
    rw [Nat.le_zero.mp hrounds]
    exact ⟨rfl, fun h => by omega⟩
  | succ rounds ih =>
    intro io got hback hrounds hwrap
    rw [readLoop]
    by_cases hend : sgBytes ≤ got
    · rw [if_pos hend, Nat.sub_eq_zero_of_le hend]
      refine ⟨⟨io.k.lastHit, rfl⟩, fun bytes h => ?_⟩
      cases h
      exact ⟨rfl, fun h => by omega⟩
    simp only [if_neg hend, ullong_of_lt hwrap, shift_page, and_page]
    obtain ⟨hpos, hle, hpage⟩ := chunk_spec (dpa + got) (Nat.sub_ne_zero_of_lt (Nat.not_le.mp hend))
    by_cases hpa : (dpa + got) / 4096 < io.k.backedPages
    case neg =>
      rw [Kload.pseudoFrameVa_beyond (Nat.not_lt.mp hpa)]
      exact ⟨⟨io.k.lastHit, rfl⟩, nofun⟩
    obtain ⟨hit, hfound, hva⟩ := Kload.pseudoFrameVa_backed hback hpa
    simp only [hfound, if_neg hva, hostVa_page hback hpa]
    have hpages := hback.pages_lt
    obtain ⟨⟨hit', hio⟩, hbytes⟩ :=
      ih (io.atHit hit) (got + chunk (dpa + got) (sgBytes - got)) hback (by omega) (by omega)
    refine ⟨⟨hit', hio⟩, fun bytes h => ?_⟩
    obtain ⟨rest, hrest, rfl⟩ := Option.map_eq_some_iff.mp h
    obtain ⟨rfl, -⟩ := hbytes rest hrest
    refine ⟨?_, fun _ => by omega⟩
    have hsplit : List.range' (dpa + got) (sgBytes - got) =
        List.range' (dpa + got) (chunk (dpa + got) (sgBytes - got)) ++
          List.range' (dpa + (got + chunk (dpa + got) (sgBytes - got)))
            (sgBytes - (got + chunk (dpa + got) (sgBytes - got))) := by
      rw [← Nat.add_assoc, ← Nat.sub_sub, List.range'_append_1, Nat.add_sub_cancel' hle]
    rw [hsplit, List.map_append, Memory.bytes, ← hostVa_run hback hpa hpage, List.map_map]
    rfl

theorem Sg.length_run (d : Sg) : d.run.length = d.len := List.length_range'

theorem readLoop_sgAt {pa : Nat} (hback : Backed io.k.block io.k.backedPages) (hpa : pa < 2 ^ 64) :
    (∃ hit, (readLoop pa sgBytes io 0).2 = io.atHit hit) ∧
    ∀ bytes, (readLoop pa sgBytes io 0).1 = some bytes →
      Sg.decode bytes = sgAt io.k.block io.mem pa ∧ pa < io.k.backedPages * 4096 := by
  obtain ⟨hio, hbytes⟩ := readLoop_spec sgBytes io 0 hback (Nat.le_refl _) hpa
  refine ⟨hio, fun bytes h => ?_⟩
  obtain ⟨rfl, hlt⟩ := hbytes bytes h
  exact ⟨rfl, hlt (by decide)⟩

theorem described_cons (block : List Block) (mem : Memory) (sgPa i left : Nat) :
    described block mem sgPa i (left + 1) =
      sgAt block mem (sgPa + i * sgBytes) :: described block mem sgPa (i + 1) left := by
  simp [described, List.range'_succ]

theorem described_congr {pas : List Nat} {sgPa count i left : Nat} (hback : Backed io.k.block io.k.backedPages)
    (h : Exactly dev io io₁ new offset pas) (hlocal : dev.Local) (hcount : i + left ≤ count)
    (hapart : ∀ pa ∈ pas, ¬ (sgPa ≤ pa ∧ pa < sgPa + count * sgBytes)) :
    described io.k.block io₁.mem sgPa i left = described io.k.block io.mem sgPa i left := by
  refine List.map_congr_left fun n hn => ?_
  rw [List.mem_range'_1] at hn
  refine congrArg Sg.decode (List.map_congr_left fun a ha => ?_)
  rw [List.mem_range'_1] at ha
  refine h.mem hlocal _ fun pa hpa heq => hapart pa hpa ?_
  rw [← hback.hostVa_inj (h.ram pa hpa) heq]
  unfold sgBytes at ha ⊢
  omega

theorem sgLoop_spec {units : Nat → Option Drive} {unit : Int} {sgPa count : Nat} (hdrive : drive units unit = some d)
    (hsg : sgPa < 2 ^ 64) (hcount : count ≤ maxSg) (left : Nat) : ∀ (io : Io) (i offset : Nat),
      Backed io.k.block io.k.backedPages → i + left = count → (i ≠ 0 → sgPa < io.k.backedPages * 4096) → ∃ new,
        Carried d write io (sgLoop dev units unit sgPa write left io i offset).2 new ∧
        ((sgLoop dev units unit sgPa write left io i offset).1 = .ok → dev.Local →
          NoOverlap sgPa count (described io.k.block io.mem sgPa i left) →
          Exactly dev io (sgLoop dev units unit sgPa write left io i offset).2 new offset
            ((described io.k.block io.mem sgPa i left).flatMap Sg.run)) := by
  induction left with
  | zero => exact fun io _ offset _ _ _ => ⟨[], .refl d write io, fun _ _ _ => .nil dev io offset⟩
  | succ left ih =>
    intro io i offset hback hi hfirst
    have hpages := hback.pages_lt
    have hsmall : sgPa + i * sgBytes < 2 ^ 64 := by
      unfold maxSg at hcount
      unfold sgBytes
      by_cases hzero : i = 0
      · omega
      · have := hfirst hzero
        omega
    rw [sgLoop, ullong_of_lt hsmall]
    obtain ⟨⟨hit, hio⟩, hread⟩ := readLoop_sgAt hback hsmall
    rw [hio]
    cases hcopied : (readLoop (sgPa + i * sgBytes) sgBytes io 0).1 with
    | none => exact ⟨[], .lookup d write io hit, nofun⟩
    | some bytes =>
      obtain ⟨hsgAt, hram⟩ := hread bytes hcopied
      simp only [hsgAt]
      generalize hdesc : sgAt io.k.block io.mem (sgPa + i * sgBytes) = desc
      split
      case isTrue => exact ⟨[], .lookup d write io hit, nofun⟩
      case isFalse hlen =>
        obtain ⟨new₁, hcarried₁, hexactly₁⟩ :=
          request_spec dev write (io.atHit hit) hdrive hback offset desc.pa desc.len
        replace hcarried₁ := (Carried.lookup d write io hit).trans hcarried₁
        split
        case isFalse hrc => exact ⟨_, hcarried₁, fun hok => absurd hok hrc⟩
        case isTrue hrc =>
          obtain ⟨hinside, hexactly₁⟩ := hexactly₁ hrc
          replace hexactly₁ := hexactly₁.of_lookup
          rw [ullong_of_lt (Nat.lt_of_le_of_lt (hinside (by omega)) d.size_lt)]
          have hback₁ := hback
          rw [← hcarried₁.block, ← hcarried₁.backed] at hback₁
          obtain ⟨new₂, hcarried₂, hexactly₂⟩ := ih _ (i + 1) (offset + desc.len) hback₁ (by omega) fun _ => by
            rw [hcarried₁.backed]
            exact Nat.lt_of_le_of_lt (Nat.le_add_right ..) hram
          refine ⟨_, hcarried₁.trans hcarried₂, fun hok hlocal hapart => ?_⟩
          rw [described_cons, hdesc] at hapart ⊢
          -- the descriptors still to come are as they were
          rw [hcarried₁.block, described_congr hback hexactly₁ hlocal (by omega : i + 1 + left ≤ count)
            (hapart desc (List.mem_cons_self ..))] at hexactly₂
          rw [List.flatMap_cons]
          refine Exactly.append hcarried₁ hexactly₁ ?_
          rw [Sg.length_run]
          exact hexactly₂ hok hlocal fun d hd => hapart d (List.mem_cons_of_mem _ hd)

end MoCoLinux.Cobd
