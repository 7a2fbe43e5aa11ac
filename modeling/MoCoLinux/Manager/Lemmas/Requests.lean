import MoCoLinux.Manager.Lemmas.Windows

/-!
# What every request keeps
-/

namespace MoCoLinux

open Arch (Mem)

namespace Kload

variable {k : Kload}

theorem Kept.window (h : k.Kept) (hp : k.p2m ≠ none) (p2m : Nat → Nat) {next : Nat} (hnext : next ≤ k.p2mCapacity) :
    Kept { k with p2m := some p2m, windowNext := next } := by
  have hb : k.Bookkept := h.arrays.resolve_left fun h0 => hp h0.1
  obtain ⟨-, m2p, -, hm, hf⟩ := hb.arrays
  refine ⟨.inr ⟨hb.geometry.congr rfl rfl rfl, hb.backed, p2m, m2p, rfl, hm, ?_⟩, hnext, h.capacity⟩
  exact ⟨hf.stored, hf.occupied⟩

theorem Kept.windowMap (h : k.Kept) (mfns : Option (Nat → Nat)) (count : Nat) : (k.windowMap mfns count).k.Kept := by
  have hnext := h.next
  rcases k.windowMap_cases mfns count with ⟨rc, -, hr⟩ |
    ⟨f, p2m, first, touched, -, -, hp, hfirst, -, ⟨-, hr⟩ | ⟨p2m', -, hr⟩⟩
  · rw [hr]
    exact h
  · rw [hr]
    exact h.window (by simp [hp]) _ (by omega)
  · rw [hr]
    exact h.window (by simp [hp]) _ hnext

theorem Kept.windowMapAt (h : k.Kept) (mfns : Option (Nat → Nat)) (count pseudo : Nat) :
    (k.windowMapAt mfns count pseudo).k.Kept := by
  rcases k.windowMapAt_cases mfns count pseudo with ⟨rc, touched, -, hr⟩ | ⟨f, p2m, touched, -, -, -, hp, -, -, -, hr⟩
  · rw [hr]
    exact h
  · rw [hr]
    exact h.window (by simp [hp]) _ h.next

theorem Kept.windowUnmap (h : k.Kept) (pseudo count : Nat) : (k.windowUnmap pseudo count).1.Kept := by
  have hnext := h.next
  have hcap := h.capacity
  rcases k.windowUnmap_cases pseudo count with ⟨-, hr⟩ | ⟨p2m, touched, -, hp, hb, -, hr⟩
  · rw [hr]
    exact h
  · rw [hr]
    refine h.window (by simp [hp]) _ ?_
    -- the watermark moves only past a window that starts at it
    split
    next hfirst =>
      have hbounds := bounds_of_le hb (by omega) hcap
      rw [ulong_of_lt (by omega)]
      omega
    next => exact hnext

end Kload

namespace Manager

variable {s s' : Manager} {opened : Nat}

theorem unmap_kept (h : s.k.Kept) (node : WindowNode) : (s.unmap node).k.Kept := h.windowUnmap _ _

theorem releaseList_kept (nodes : List WindowNode) : ∀ {s : Manager}, s.k.Kept → (s.releaseList nodes).k.Kept := by
  induction nodes with
  | nil => exact fun h => h
  | cons node nodes ih => exact fun h => ih (unmap_kept h node)

theorem windowReleaseAll_kept (h : s.k.Kept) (opened : Nat) : (s.windowReleaseAll opened).k.Kept := releaseList_kept _ h

theorem windowRelease_kept (h : s.k.Kept) (opened pseudo pages : Nat) :
    (s.windowRelease opened pseudo pages).2.k.Kept := by
  rw [windowRelease]
  split
  · exact h
  next node _ => exact unmap_kept (s := { s with windows := _ }) h node

theorem publish_kept (nodeOk : Bool) {call : Kload.WindowCall} (h : call.k.Kept) (node : WindowNode) :
    (s.publish nodeOk call node).2.2.k.Kept := by
  rw [publish]
  split
  · cases nodeOk with
    | true => exact h
    | false => exact unmap_kept (s := s.published call.k node) h node
  · exact h

theorem kwindow_kept (h : s.k.Kept) (host : LockHost) (va bytes : Nat) :
    (s.kwindow opened host va bytes).2.2.k.Kept := by
  rw [kwindow]
  split
  · exact h
  · exact publish_kept _ (h.windowMap _ _) _

theorem kwindowAt_kept (h : s.k.Kept) (host : LockHost) (va bytes pseudo : Nat) :
    (s.kwindowAt opened host va bytes pseudo).2.2.k.Kept := by
  rw [kwindowAt]
  split
  · exact h
  · exact publish_kept _ (h.windowMapAt _ _ _) _

theorem userMapPut_kept {k : Kload} (h : k.Kept) : k.userMapPut.Kept := k.userMapPut_effect.elim h.same Kload.Emptied.kept

theorem kmap_kept (h : s.k.Kept) (slicesOk : Bool) : (s.kmap opened slicesOk).k.Kept := by
  have hget := h.same s.k.userMapTryGet_same
  rw [kmap]
  split
  · exact h
  · split
    next k he =>
      rw [he] at hget
      exact hget
    next k he =>
      rw [he] at hget
      split
      · exact hget
      · exact userMapPut_kept hget

theorem kmapRelease_kept (h : s.k.Kept) (opened : Nat) : (s.kmapRelease opened).k.Kept := by
  have hall := windowReleaseAll_kept h opened
  rw [kmapRelease]
  dsimp only
  split
  · exact userMapPut_kept hall
  · exact hall

theorem handle_kept (hk : s.k.Kept) {request : Request} (hwords : Words s opened request)
    (h : s.handle opened request = some s') : s'.k.Kept := by
  cases request with
  | kloadBegin host minVa maxVa ramBytes ramUserVa ramUserBytes =>
    obtain ⟨⟨rc, l, m⟩, hbegin, hs⟩ := Option.bind_eq_some_iff.mp h
    cases hs
    exact (Loader.begin_effect hk hwords hbegin).kept hk
  | kloadChunk host c =>
    cases h
    exact hk.same (Loader.chunk_sameRam host c s.l s.m).backing
  | kram host ramBytes textVa endVa =>
    obtain ⟨⟨rc, l, m⟩, hram, hs⟩ := Option.bind_eq_some_iff.mp h
    cases hs
    exact (Loader.buildRam_effect hk hram).elim hk.same fun hgrew => hgrew.kept hk
  | kloadEnd =>
    cases h
    exact s.k.free_effect.elim hk.same Kload.Emptied.kept
  | kwindow host va bytes =>
    cases h
    exact kwindow_kept hk host va bytes
  | kwindowAt host va bytes pseudo =>
    cases h
    exact kwindowAt_kept hk host va bytes pseudo
  | kunwindow pseudo bytes =>
    cases h
    exact windowRelease_kept hk _ _ _
  | kmap slicesOk =>
    cases h
    exact kmap_kept hk slicesOk
  | kunmap =>
    cases h
    exact kmapRelease_kept hk opened

theorem Reachable.kept (h : Reachable Words s) : s.k.Kept := by
  refine Runs.Reach.invariant (P := fun s => s.k.Kept) (fun s hs => ?_) (fun s request s' hk hs => ?_) h
  · obtain ⟨m, rfl⟩ := hs
    exact Kload.initial_kept
  · exact handle_kept hk hs.1 hs.2

end Manager

end MoCoLinux
