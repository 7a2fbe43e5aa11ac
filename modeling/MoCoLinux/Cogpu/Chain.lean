import MoCoLinux.Cogpu.Vring

/-!
# What a chain denotes

The buffers of a chain are host memory, the descriptors name guest memory. A resolve function follows some mapping of
guest bytes to host bytes, and where it answers, the image of the range is contiguous.
-/

namespace MoCoLinux.Cogpu

def Buf.bytes (b : Buf) : List Nat := List.range' b.addr b.len

def bufBytes (bufs : List Buf) : List Nat := bufs.flatMap Buf.bytes

def guestRange (addr len : Nat) : List Nat := (List.range len).map fun k => ullong (addr + k)

def Desc.range (d : Desc) : List Nat := guestRange d.addr d.len

/-- An answer of `resolve` is the address of the image of the whole range. -/
def Images (host : Nat → Nat) (resolve : Nat → Nat → Option Nat) : Prop :=
  ∀ gpa len p, resolve gpa len = some p → (guestRange gpa len).map host = List.range' p len

def Chain.side (chain : Chain) (write : Bool) : List Buf := if write then chain.outs else chain.ins

namespace Vring

/-- The descriptors of the chain that starts at an index, as the walk finds them with the hops that are left. -/
inductive Linked (num : Nat) (view : View) : Nat → Nat → List Desc → Prop where
  | last {hops i} : i < num → (view.desc hops i).hasNext = false → Linked num view (hops + 1) i [view.desc hops i]
  | next {hops i ds} : i < num → (view.desc hops i).hasNext = true →
      Linked num view hops (u16 (view.desc hops i).next) ds → Linked num view (hops + 1) i (view.desc hops i :: ds)

/-- The host bytes of the readable or the writable descriptors, in chain order. -/
def image (host : Nat → Nat) (write : Bool) (ds : List Desc) : List Nat :=
  (ds.filter fun d => d.isWrite == write).flatMap fun d => d.range.map host

/-- The number of descriptors that were visited: each has its `len` read. -/
def visits (log : List Access) : Nat := log.countP fun a => a.area = .desc ∧ a.bytes = 4

structure Pops (host : Nat → Nat) (vr : Vring) (view : View) : Prop where
  visits : visits (vr.pop view).2 ≤ vr.num
  chain : ∀ chain, (vr.pop view).1 = some chain → vr.afterPop view = { vr with lastAvail := u16 (vr.lastAvail + 1) } ∧
    ∃ ds, Linked vr.num view (hopLimit vr.num) (u16 (view.ring (vr.lastAvail % vr.num))) ds ∧
      bufBytes chain.ins = image host false ds ∧ bufBytes chain.outs = image host true ds
  none : (vr.pop view).1 = none → vr.afterPop view = vr

end Vring

end MoCoLinux.Cogpu
