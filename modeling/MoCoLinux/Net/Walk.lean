import MoCoLinux.Net.Tx

/-!
# Walking a copy of the transmit ring (`co_net_walk`)

`Tx.walk` is the walk of the bridge, with its callback, over what the guest placed. Here the callback, the indices
and the copy are anything, and the walk records which bytes it reads. The copy is the memory from its first byte
on: a byte behind the ring has a value too.
-/

namespace MoCoLinux.Net

/-- What a walk leaves: the state of the callback, the return value, `consumed_out`, the offsets in the copy that
were read, and the frames made of them. -/
structure Walk (σ : Type) where
  data : σ
  ret : Int
  consumed : Nat
  reads : List Nat
  handed : List Frame

namespace Walk

variable {σ : Type} (ring : Nat → UInt8) (func : Option (σ → Frame → Bool × σ)) (head : Nat)

def offset (pos : Nat) : Nat := pos &&& (ringSize - 1)

def lengthAt (pos : Nat) : Nat := le32 (bytesAt ring (offset pos) 4)

def Corrupt (pos : Nat) : Prop :=
  lengthAt ring pos = 0 ∨ maxFrame < lengthAt ring pos ∨ u32Sub head pos < recordBytes (lengthAt ring pos)

instance (pos : Nat) : Decidable (Corrupt ring head pos) := inferInstanceAs (Decidable (_ ∨ _))

def next (pos : Nat) : Nat := u32 (pos + recordBytes (lengthAt ring pos))

def frameAt (pos : Nat) : Frame := Tx.frameIn ring (offset (offset pos + 4)) (lengthAt ring pos)

def frameReads (off len : Nat) : List Nat :=
  let first := if len < ringSize - off then len else ringSize - off
  List.range' off first ++ List.range' 0 (len - first)

def call (data : σ) (frame : Frame) : Bool × σ :=
  match func with
  | none => (true, data)
  | some f => f data frame

/-- The loop of `co_net_walk`; `ret` is `frames` in it. -/
def loop : Nat → Nat → Walk σ → Option (Walk σ)
  | 0, _, _ => none
  | fuel + 1, pos, w =>
    if pos = head then some w
    else
      let w := { w with reads := w.reads ++ List.range' (offset pos) 4 }
      if Corrupt ring head pos then some { w with ret := -1 }
      else
        let frame := frameAt ring pos
        let answer := call func w.data frame
        let w := { w with
          data := answer.2
          reads := w.reads ++ frameReads (offset (offset pos + 4)) (lengthAt ring pos)
          handed := w.handed ++ [frame] }
        if answer.1 = false then some w
        else loop fuel (next ring pos) { w with ret := w.ret + 1, consumed := next ring pos }

/-- `co_net_walk`, with a round of the loop for each byte of the ring and one more. -/
def run (tail : Nat) (data : σ) : Option (Walk σ) :=
  let w : Walk σ := ⟨data, 0, tail, [], []⟩
  if ringSize < u32Sub head tail then some { w with ret := -1 } else loop ring func head (ringSize + 1) tail w

/-- Nothing outside the copy is read, no frame is too long, and the position is between the indices. -/
structure Contained (tail : Nat) (w : Walk σ) : Prop where
  reads : ∀ i ∈ w.reads, i < ringSize
  handed : ∀ frame ∈ w.handed, frame.length ≤ maxFrame
  consumed : u32Sub w.consumed tail ≤ u32Sub head tail

/-- The positions that well-formed records lead to as long as the callback accepts their frames. -/
inductive Meets : σ → Nat → Nat → Prop where
  | here {data pos} : Meets data pos pos
  | next {data pos p} : pos ≠ head → ¬ Corrupt ring head pos → (call func data (frameAt ring pos)).1 = true →
      Meets (call func data (frameAt ring pos)).2 (next ring pos) p → Meets data pos p

/-- No length word straddles the end of the ring. -/
def Straight (data : σ) (pos : Nat) : Prop :=
  ∀ p, Meets ring func head data pos p → p ≠ head → offset p + 4 ≤ ringSize

end Walk

end MoCoLinux.Net
