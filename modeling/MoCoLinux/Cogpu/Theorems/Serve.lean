import MoCoLinux.Cogpu.Serve
import MoCoLinux.Net.Lemmas.Record

/-!
# Bounds of the replies: results
-/

namespace MoCoLinux.Cogpu

variable {b : Backend} {bufs : List Buf} {inp out : Buf} {content : Nat → UInt8} {st : Store}

theorem Store.inside_of_le {k : Nat} (haddr : st.addr = out.addr + k) (hend : k + st.bytes.length ≤ out.len) :
    st.Inside out := by
  intro i hi
  omega

theorem Store.Inside.end_le {k : Nat} (h : st.Inside out) (haddr : st.addr = out.addr + k)
    (hbytes : 0 < st.bytes.length) : k + st.bytes.length ≤ out.len := by
  have hlast := h (st.bytes.length - 1) (by omega)
  omega

theorem payloadWord_inside {k n : Nat} (h : headerBytes + k + 4 ≤ out.len) :
    Store.Inside ⟨out.addr + headerBytes + k, Net.word32 n⟩ out := by
  apply Store.inside_of_le (k := headerBytes + k) (Nat.add_assoc ..)
  rwa [Net.length_word32]

theorem typeStore_inside (hout : headerBytes ≤ out.len) (type : RespType) : (typeStore out type).Inside out := by
  apply Store.inside_of_le (k := 0) rfl
  simp only [typeStore, Net.length_word32]
  simp only [headerBytes] at hout
  omega

theorem fenceStores_inside (hout : headerBytes ≤ out.len) (req : Header) : ∀ st ∈ fenceStores out req, st.Inside out := by
  simp only [headerBytes] at hout
  intro st hst
  rw [fenceStores] at hst
  split at hst
  · simp only [List.mem_cons, List.not_mem_nil, or_false] at hst
    rcases hst with rfl | rfl | rfl | rfl
    · exact Store.inside_of_le (k := 4) rfl (by simp only [Net.length_word32]; omega)
    · apply Store.inside_of_le (k := 8) rfl
      simp only [List.length_append, Net.length_word32]
      omega
    · exact Store.inside_of_le (k := 16) rfl (by simp only [Net.length_word32]; omega)
    · exact Store.inside_of_le (k := 20) rfl (by simp only [List.length_cons, List.length_nil]; omega)
  · cases hst

theorem Reply.bare_fits (hout : headerBytes ≤ out.len) (type : RespType) : (Reply.bare out type).Fits out := by
  refine ⟨fun st hst => ?_, hout⟩
  cases List.mem_singleton.mp hst
  exact typeStore_inside hout type

theorem Reply.getDisplayInfo_fits (hout : headerBytes ≤ out.len) : (Reply.getDisplayInfo out).Fits out := by
  rw [Reply.getDisplayInfo]
  split
  · refine ⟨fun st hst => ?_, le_refl _⟩
    simp only [List.mem_cons, List.not_mem_nil, or_false] at hst
    rcases hst with rfl | rfl
    · exact typeStore_inside hout _
    · apply Store.inside_of_le (k := headerBytes) rfl
      simp only [List.length_replicate]
      omega
  · exact Reply.bare_fits hout _

theorem Reply.getCapsetInfo_fits (hout : headerBytes ≤ out.len) : (Reply.getCapsetInfo b inp out content).Fits out := by
  rw [Reply.getCapsetInfo]
  split
  · exact Reply.bare_fits hout _
  · rename_i hlen
    refine ⟨fun st hst => ?_, by dsimp only; omega⟩
    simp only [List.mem_cons, List.not_mem_nil, or_false] at hst
    rcases hst with rfl | rfl | rfl | rfl | rfl | rfl | rfl
    · exact payloadWord_inside (k := 0) (by omega)
    · exact payloadWord_inside (by omega)
    · exact payloadWord_inside (by omega)
    · exact payloadWord_inside (by omega)
    · exact payloadWord_inside (by omega)
    · exact payloadWord_inside (by omega)
    · exact typeStore_inside hout _

theorem Reply.mapBlob_fits (hout : headerBytes ≤ out.len) : (Reply.mapBlob b inp out).Fits out := by
  rw [Reply.mapBlob]
  split
  · exact Reply.bare_fits hout _
  · split
    · refine ⟨fun st hst => ?_, by dsimp only; omega⟩
      simp only [List.mem_cons, List.not_mem_nil, or_false] at hst
      rcases hst with rfl | rfl | rfl
      · exact payloadWord_inside (k := 0) (by omega)
      · exact payloadWord_inside (by omega)
      · exact typeStore_inside hout _
    · exact Reply.bare_fits hout _

theorem Reply.getCapset_fits_iff (hb : b.FillsExactly) (hout : headerBytes ≤ out.len) :
    (Reply.getCapset b inp out content).Fits out ↔ (headerBytes + 8 ≤ inp.len → headerBytes < out.len →
      headerBytes + (b.capset (wordAt content headerBytes)).2 ≤ out.len) := by
  rw [Reply.getCapset]
  split
  · exact iff_of_true (Reply.bare_fits hout _) (fun h => absurd h (by omega))
  · rename_i hinp
    split
    · rename_i hroom
      have hcaps := hb (wordAt content headerBytes) (wordAt content (headerBytes + 4))
      constructor
      · intro h _ _
        rw [← hcaps]
        rcases Nat.eq_zero_or_pos (b.fillCaps (wordAt content headerBytes) (wordAt content (headerBytes + 4))).length with
          hzero | hpos
        · omega
        · exact (h.1 _ List.mem_cons_self).end_le rfl hpos
      · intro h
        refine ⟨fun st hst => ?_, le_refl _⟩
        simp only [List.mem_cons, List.not_mem_nil, or_false] at hst
        rcases hst with rfl | rfl
        · apply Store.inside_of_le (k := headerBytes) rfl
          rw [hcaps]
          exact h (by omega) hroom
        · exact typeStore_inside hout _
    · rename_i hroom
      exact iff_of_true (Reply.bare_fits hout _) (fun _ h => absurd h hroom)

theorem Command.reply_fits (hout : headerBytes ≤ out.len) {command : Command} (h : command ≠ .getCapset) :
    (command.reply b bufs inp out content).Fits out := by
  cases command
  case getDisplayInfo => exact Reply.getDisplayInfo_fits hout
  case getCapsetInfo => exact Reply.getCapsetInfo_fits hout
  case getCapset => exact absurd rfl h
  case mapBlob => exact Reply.mapBlob_fits hout
  all_goals exact Reply.bare_fits hout _

theorem Command.reply_fits_iff (hb : b.FillsExactly) (hout : headerBytes ≤ out.len) (command : Command) :
    (command.reply b bufs inp out content).Fits out ↔ (command = .getCapset → headerBytes + 8 ≤ inp.len →
      headerBytes < out.len → headerBytes + (b.capset (wordAt content headerBytes)).2 ≤ out.len) := by
  by_cases h : command = .getCapset
  · subst h
    exact (Reply.getCapset_fits_iff hb hout).trans ⟨fun h _ => h, fun h => h rfl⟩
  · exact iff_of_true (Command.reply_fits hout h) (fun hcapset => absurd hcapset h)

theorem Reply.fits_framed (hout : headerBytes ≤ out.len) (req : Header) (reply : Reply) :
    Reply.Fits ⟨⟨out.addr, List.replicate headerBytes 0⟩ :: reply.stores ++ fenceStores out req, reply.written⟩ out ↔
      reply.Fits out := by
  constructor
  · intro h
    exact ⟨fun st hst => h.1 st (List.mem_append_left _ (List.mem_cons_of_mem _ hst)), h.2⟩
  · intro h
    refine ⟨fun st hst => ?_, h.2⟩
    rcases List.mem_append.mp hst with hst | hst
    · rcases List.mem_cons.mp hst with rfl | hst
      · exact Store.inside_of_le (k := 0) rfl (by simp only [List.length_replicate]; omega)
      · exact h.1 st hst
    · exact fenceStores_inside hout req st hst

/-- For every chain with a readable and a writable piece and every answer of what is behind the daemon: the reply and
the length returned stay inside the first writable piece exactly if a capset that is asked for fits there. -/
theorem serve_fits_iff (b : Backend) (chain : Chain) (inp out : Buf) (content : Nat → UInt8)
    (hinp : chain.ins.head? = some inp) (hout : chain.outs.head? = some out) (hb : b.FillsExactly) :
    (serve b chain content).Fits out ↔ CapsetFits b inp out content := by
  obtain ⟨ins, hins⟩ := List.head?_eq_some_iff.mp hinp
  obtain ⟨outs, houts⟩ := List.head?_eq_some_iff.mp hout
  simp only [serve, hins, houts]
  split
  · rename_i hshort
    refine iff_of_true ⟨fun st hst => (by cases hst), Nat.zero_le _⟩ ?_
    intro _ hlen hroom
    omega
  · rename_i hlong
    have hroom : headerBytes ≤ out.len := by omega
    exact (Reply.fits_framed hroom _ _).trans (Command.reply_fits_iff hb hroom _)

def virgl : Backend where
  capset set := if set = 1 then (1, 308) else (0, 0)
  fillCaps set _ := List.replicate (if set = 1 then 308 else 0) 0
  mapInfo := 0
  memory := true
  accepts := true

theorem virgl_fillsExactly : virgl.FillsExactly := by
  intro set version
  simp only [virgl, List.length_replicate]
  split <;> rfl

def askCapset : Nat → UInt8
  | 0 => 0x09
  | 1 => 0x01
  | 24 => 1
  | 28 => 1
  | _ => 0

def capsetView (room : Nat) : View where
  availIdx := 1
  ring _ := 0
  desc _ i := if i = 0 then ⟨0x1000, 32, 1, 1⟩ else ⟨0x2000, room, 2, 0⟩
  resolve gpa _ := some gpa

theorem serve_fits_whole_capset :
    (serve virgl ⟨0, [⟨0x1000, 32⟩], [⟨0x2000, 332⟩], 32, 332⟩ askCapset).Fits ⟨0x2000, 332⟩ :=
  (serve_fits_iff virgl _ ⟨0x1000, 32⟩ ⟨0x2000, 332⟩ askCapset rfl rfl virgl_fillsExactly).mpr (by decide)

/-- The guest leaves eight bytes for a capset, and the renderer writes behind them. -/
theorem serve_past_reply :
    (Vring.pop ⟨256, 0, 0⟩ (capsetView 32)).1 = some ⟨0, [⟨0x1000, 32⟩], [⟨0x2000, 32⟩], 32, 32⟩ ∧
      virgl.FillsExactly ∧
      ¬ (serve virgl ⟨0, [⟨0x1000, 32⟩], [⟨0x2000, 32⟩], 32, 32⟩ askCapset).Fits ⟨0x2000, 32⟩ := by
  refine ⟨rfl, virgl_fillsExactly, fun h => ?_⟩
  have hcaps : Store.Inside ⟨0x2018, List.replicate 308 0⟩ ⟨0x2000, 32⟩ := h.1 _ (.tail _ (.head _))
  have hlength : 8 < (List.replicate 308 (0 : UInt8)).length := by
    rw [List.length_replicate]
    omega
  exact absurd (hcaps 8 hlength).2 (by decide)

end MoCoLinux.Cogpu
