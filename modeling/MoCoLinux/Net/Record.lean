import MoCoLinux.Common

/-!
# Frames in the network rings

A record is a 32-bit length, the frame, and padding up to a four-byte boundary. The format is declared in
`drivers/net/conet_colinux.c` of the guest and mirrored by `kernel/net.c`, `user/conet_ring.c` and
`user/slirp/co_main.c` of the host.
-/

namespace MoCoLinux.Net

abbrev Frame := List UInt8

/-- `CO_NIO_MAX_FRAME`, `CO_NETIO_MAX_FRAME` and `CO_NET_MAX_FRAME`. -/
def maxFrame : Nat := 1514

/-- `CO_NIO_TX_SIZE`, `CO_NIO_RX_SIZE` and the guest's and the bridge's names for them. -/
def ringSize : Nat := 128 * 1024

/-- `4 + ((len + 3) & ~3u)`, which the guest calls `co_net_record_bytes`. -/
def recordBytes (len : Nat) : Nat := u32 (4 + (u32 (len + 3) &&& 0xfffffffc))

def word32 (n : Nat) : List UInt8 :=
  [.ofNat n, .ofNat (n / 256), .ofNat (n / 65536), .ofNat (n / 16777216)]

/-- The word a list of bytes starts with; `co_net_le32` of the bridge. -/
def le32 : List UInt8 → Nat
  | b₀ :: b₁ :: b₂ :: b₃ :: _ => b₀.toNat ||| b₁.toNat <<< 8 ||| b₂.toNat <<< 16 ||| b₃.toNat <<< 24
  | _ => 0

def bytesAt (buf : Nat → UInt8) (start n : Nat) : List UInt8 := (List.range n).map fun i => buf (start + i)

def Legal (frame : Frame) : Prop := 0 < frame.length ∧ frame.length ≤ maxFrame

instance (frame : Frame) : Decidable (Legal frame) := inferInstanceAs (Decidable (_ ∧ _))

/-- The bytes are the records of the frames. The padding is whatever the memory held. -/
inductive Records : List UInt8 → List Frame → Prop where
  | nil : Records [] []
  | cons {frame pad rest frames} : Legal frame → pad.length + (4 + frame.length) = recordBytes frame.length →
      Records rest frames → Records (word32 frame.length ++ frame ++ pad ++ rest) (frame :: frames)

def decode : Nat → List UInt8 → List Frame
  | 0, _ => []
  | n + 1, bytes => (bytes.drop 4).take (le32 bytes) :: decode n (bytes.drop (recordBytes (le32 bytes)))

def recordsBytes (frames : List Frame) : Nat := (frames.map fun f => recordBytes f.length).sum

end MoCoLinux.Net
