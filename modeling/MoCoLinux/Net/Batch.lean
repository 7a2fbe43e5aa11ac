import MoCoLinux.Lib.Runs
import MoCoLinux.Net.Record

/-!
# Frames on their way to the guest (`ring_flush` and `slirp_output_to_ring` in `user/slirp/co_main.c`)

The bridge collects the frames slirp puts out in `ring_batch`, as records, and hands them to the driver with
`co_manager_conet_put`. What the driver answers is a parameter of each call.
-/

namespace MoCoLinux.Net

def batchSize : Nat := 0x8000

/-- The array after `memcpy(buf + start, bytes, n)`. -/
def putBytes (buf : Nat → UInt8) (start : Nat) (bytes : List UInt8) (i : Nat) : UInt8 :=
  if start ≤ i then (bytes[i - start]?).getD (buf i) else buf i

/-- `ring_batch`, `ring_batch_used`, `ring_batch_frames` and `ring_rx_full`. -/
structure Batch where
  buf : Nat → UInt8
  used : Nat
  frames : Nat
  rxFull : Bool

/-- What `co_manager_conet_put` returns: the code, and `*taken`, which an error leaves at 0. -/
structure Answer where
  rc : Rc
  taken : Nat

namespace Batch

def bytes (b : Batch) : List UInt8 := bytesAt b.buf 0 b.used

def skipRecords (buf : Nat → UInt8) : Nat → Nat → Nat
  | 0, pos => pos
  | i + 1, pos => skipRecords buf i (u32 (pos + recordBytes (le32 (bytesAt buf pos 4))))

def taken (answer : Answer) : Nat := if answer.rc = .ok then answer.taken else 0

def flush (answer : Answer) (b : Batch) : Batch :=
  if b.frames = 0 then b
  else
    let rxFull := if answer.rc ≠ .ok ∨ answer.taken < b.frames then true else b.rxFull
    let pos := skipRecords b.buf (taken answer) 0
    if b.used ≤ pos then { b with rxFull := rxFull, used := 0, frames := 0 }
    else
      { buf := fun i => if i < b.used - pos then b.buf (pos + i) else b.buf i
        used := b.used - pos
        frames := u32Sub b.frames (taken answer)
        rxFull := rxFull }

def noRoom (b : Batch) (record : Nat) : Bool := decide (batchSize < u32 (b.used + record))

def makeRoom (answer : Answer) (record : Nat) (b : Batch) : Batch := if b.noRoom record then b.flush answer else b

/-- `slirp_output_to_ring`. -/
def output (answer : Answer) (pkt : Nat → UInt8) (pktLen : Int32) (b : Batch) : Batch :=
  let len := pktLen.toUInt32.toNat
  let record := recordBytes len
  if pktLen ≤ 0 ∨ maxFrame < len then b
  else
    let b := b.makeRoom answer record
    if b.noRoom record then { b with rxFull := true }
    else
      let buf := putBytes (putBytes b.buf b.used (word32 len)) (b.used + 4) (bytesAt pkt 0 len)
      { b with
        buf := if 4 + len < record then putBytes buf (b.used + 4 + len) (List.replicate (record - 4 - len) 0) else buf
        used := u32 (b.used + record)
        frames := u32 (b.frames + 1) }

end Batch

/-- One call. `turn` is the top of `ring_loop`, which clears `ring_rx_full`. -/
inductive BatchOp where
  | output (answer : Answer) (pkt : Nat → UInt8) (pktLen : Int32)
  | flush (answer : Answer)
  | turn

/-- The batch with its history: the frames the driver took, and the frames of legal size slirp put out, each
with whether it arrived when there was no room for it even after a flush. -/
structure BatchRun where
  batch : Batch
  accepted : List Frame
  outputs : List (Frame × Bool)

namespace BatchRun

def takes (answer : Answer) (b : Batch) : List Frame :=
  if b.frames = 0 then [] else decode (Batch.taken answer) b.bytes

def Fair (answer : Answer) (b : Batch) : Prop := answer.taken ≤ b.frames

instance (answer : Answer) (b : Batch) : Decidable (Fair answer b) := inferInstanceAs (Decidable (_ ≤ _))

def LegalSize (pktLen : Int32) : Prop := 0 < pktLen ∧ pktLen.toInt ≤ maxFrame

instance (pktLen : Int32) : Decidable (LegalSize pktLen) := inferInstanceAs (Decidable (_ ∧ _))

def packet (pkt : Nat → UInt8) (pktLen : Int32) : Frame := bytesAt pkt 0 pktLen.toInt.toNat

inductive Step : BatchRun → BatchOp → BatchRun → Prop where
  | output {s} (answer pkt pktLen) : Fair answer s.batch → LegalSize pktLen →
      Step s (.output answer pkt pktLen)
        { batch := s.batch.output answer pkt pktLen
          accepted := if s.batch.noRoom (recordBytes (packet pkt pktLen).length) then
              s.accepted ++ takes answer s.batch
            else s.accepted
          outputs := s.outputs ++ [(packet pkt pktLen,
            (s.batch.makeRoom answer (recordBytes (packet pkt pktLen).length)).noRoom
              (recordBytes (packet pkt pktLen).length))] }
  | illegal {s} (answer pkt pktLen) : ¬ LegalSize pktLen →
      Step s (.output answer pkt pktLen) { s with batch := s.batch.output answer pkt pktLen }
  | flush {s} (answer) : Fair answer s.batch →
      Step s (.flush answer)
        { s with batch := s.batch.flush answer, accepted := s.accepted ++ takes answer s.batch }
  | turn {s} : Step s .turn { s with batch := { s.batch with rxFull := false } }

def Start (s : BatchRun) : Prop := s.batch.used = 0 ∧ s.batch.frames = 0 ∧ s.accepted = [] ∧ s.outputs = []

def Reachable : BatchRun → Prop := Runs.Reach Start Step

def kept (s : BatchRun) : List Frame := (s.outputs.filter fun o => !o.2).map Prod.fst

end BatchRun

end MoCoLinux.Net
