import MoCoLinux.Kload.State

/-!
# Host memory windows (`co_kload_window_map`, `co_kload_window_map_at`, `co_kload_window_unmap`)

Each loop over the slots of a window also returns the p2m indices it reads or writes, in order. Each call
runs under `kload_lock`, so it is one step.
-/

namespace MoCoLinux.Kload

def windowSlot (first i : Nat) : Nat := ulong (first + i)

/-- The scan of `co_kload_window_map_at` for an occupied slot: `n` slots from slot `i` on. -/
def windowScan (p2m : Nat → Nat) (first : Nat) : Nat → Nat → Bool × List Nat
  | 0, _ => (true, [])
  | n + 1, i =>
    if p2m (windowSlot first i) ≠ 0 then (false, [windowSlot first i])
    else
      let (vacant, touched) := windowScan p2m first n (i + 1)
      (vacant, windowSlot first i :: touched)

/-- `while (i-- > 0) kload_p2m[first + i] = 0`. -/
def windowRollback (first : Nat) : Nat → (Nat → Nat) → (Nat → Nat) × List Nat
  | 0, p2m => (p2m, [])
  | i + 1, p2m =>
    let (p2m, touched) := windowRollback first i (Function.update p2m (windowSlot first i) 0)
    (p2m, windowSlot first i :: touched)

/-- The loop that stores the frames of a window: `n` slots from slot `i` on. A frame zero undoes the slots
stored so far. -/
def windowFill (mfns : Nat → Nat) (first : Nat) : Nat → Nat → (Nat → Nat) → Bool × (Nat → Nat) × List Nat
  | 0, _, p2m => (true, p2m, [])
  | n + 1, i, p2m =>
    if mfns i = 0 then
      let (p2m, touched) := windowRollback first i p2m
      (false, p2m, touched)
    else
      let (done, p2m, touched) :=
        windowFill mfns first n (i + 1) (Function.update p2m (windowSlot first i) (mfns i))
      (done, p2m, windowSlot first i :: touched)

/-- The loop of `co_kload_window_unmap`: `n` slots from slot `i` on. -/
def windowClear (first : Nat) : Nat → Nat → (Nat → Nat) → (Nat → Nat) × List Nat
  | 0, _, p2m => (p2m, [])
  | n + 1, i, p2m =>
    let (p2m, touched) := windowClear first n (i + 1) (Function.update p2m (windowSlot first i) 0)
    (p2m, windowSlot first i :: touched)

structure WindowCall where
  rc : Rc
  k : Kload
  pseudo : Nat
  touched : List Nat

def WindowCall.refuse (rc : Rc) (k : Kload) : WindowCall := ⟨rc, k, 0, []⟩

/-- `co_kload_window_map`; `none` is `mfns == NULL`. -/
def windowMap (k : Kload) (mfns : Option (Nat → Nat)) (count : Nat) : WindowCall :=
  match mfns with
  | none => .refuse .invalidParameter k
  | some mfns =>
    if count = 0 then .refuse .invalidParameter k
    else
      match k.p2m with
      | none => .refuse .error k
      | some p2m =>
        if k.windowNext < count ∨ k.windowNext - count < k.windowBasePages then .refuse .outOfMemory k
        else
          let first := k.windowNext - count
          match windowFill mfns first count 0 p2m with
          | (false, p2m, touched) => ⟨.invalidParameter, { k with p2m := some p2m }, 0, touched⟩
          | (true, p2m, touched) =>
            ⟨.ok, { k with p2m := some p2m, windowNext := first }, first <<< 12, touched⟩

/-- The page number of a pseudo-physical address, as an `unsigned long`. -/
def windowFirst (pseudo : Nat) : Nat := ulong (pseudo >>> 12)

/-- The bounds test `co_kload_window_map_at` and `co_kload_window_unmap` share. -/
def windowOutOfBounds (k : Kload) (first count : Nat) : Prop :=
  first < k.windowBasePages ∨ ulongSub k.p2mCapacity first < count

instance (k : Kload) (first count : Nat) : Decidable (k.windowOutOfBounds first count) :=
  inferInstanceAs (Decidable (_ ∨ _))

/-- `co_kload_window_map_at`; `none` is `mfns == NULL`. -/
def windowMapAt (k : Kload) (mfns : Option (Nat → Nat)) (count pseudo : Nat) : WindowCall :=
  let first := windowFirst pseudo
  match mfns with
  | none => .refuse .invalidParameter k
  | some mfns =>
    if count = 0 ∨ pseudo &&& (Arch.pageSize - 1) ≠ 0 then .refuse .invalidParameter k
    else
      match k.p2m with
      | none => .refuse .error k
      | some p2m =>
        if k.windowOutOfBounds first count then .refuse .invalidParameter k
        else
          match windowScan p2m first count 0 with
          | (false, touched) => ⟨.outOfMemory, k, 0, touched⟩
          | (true, touched) =>
            match windowFill mfns first count 0 p2m with
            | (false, p2m, touched') =>
              ⟨.invalidParameter, { k with p2m := some p2m }, 0, touched ++ touched'⟩
            | (true, p2m, touched') => ⟨.ok, { k with p2m := some p2m }, 0, touched ++ touched'⟩

/-- `co_kload_window_unmap`, which returns nothing; the second component is what it touches. -/
def windowUnmap (k : Kload) (pseudo count : Nat) : Kload × List Nat :=
  let first := windowFirst pseudo
  if count = 0 then (k, [])
  else
    match k.p2m with
    | none => (k, [])
    | some p2m =>
      if k.windowOutOfBounds first count then (k, [])
      else
        let (p2m, touched) := windowClear first count 0 p2m
        -- address space comes back only when the window at the watermark is the one released
        ({ k with
            p2m := some p2m
            windowNext := if first = k.windowNext then ulong (k.windowNext + count) else k.windowNext },
          touched)

end MoCoLinux.Kload
