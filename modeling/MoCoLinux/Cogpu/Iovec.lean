import MoCoLinux.Cogpu.Chain
import MoCoLinux.Cogpu.Serve
import MoCoLinux.Cogpu.Slices

/-!
# The iovecs of RESOURCE_ATTACH_BACKING (`cogpu-daemon.c`)

The request is read from the chain as the guest cut it, each entry is cut where one mapping of guest memory ends, and
each piece becomes one iovec. The slices, pins and refusals are those of the model of slices; this is the same code with
the bytes of the request and with the pointers.
-/

namespace MoCoLinux.Cogpu

open Net (le32)

def Buf.content (mem : Nat → UInt8) (b : Buf) : List UInt8 := b.bytes.map mem

def readable (mem : Nat → UInt8) (bufs : List Buf) : List UInt8 := (bufBytes bufs).map mem

def gatherBytes (mem : Nat → UInt8) (want : Nat) : List Buf → List UInt8 → List UInt8
  | [], done => done
  | buf :: bufs, done =>
    if done.length < want then gatherBytes mem want bufs (done ++ (buf.content mem).take (want - done.length))
    else done

def gather (mem : Nat → UInt8) (bufs : List Buf) (skip want : Nat) : List UInt8 :=
  match bufs with
  | [] => []
  | buf :: bufs => gatherBytes mem want bufs (if buf.len ≤ skip then [] else ((buf.content mem).drop skip).take want)

/-- `sizeof(struct virtio_gpu_mem_entry)`. -/
def entryBytes : Nat := 16

def entryAt (list : List UInt8) (i : Nat) : Nat × Nat :=
  let ent := list.drop (i * entryBytes)
  (le32 ent + 2 ^ 32 * le32 (ent.drop 4), le32 (ent.drop 8))

def entriesOf (count : Nat) (list : List UInt8) : List (Nat × Nat) := (List.range count).map (entryAt list)

/-- Where the mappings are: `g_ram_view`, and `range.user_va` of each slice. -/
structure Host where
  view : Nat
  userVa : Nat → Nat

inductive Mapping where
  | view
  | slice (sl : Slice)
  deriving DecidableEq, Repr

namespace Mapping

def target : Mapping → Target
  | view => .view
  | slice sl => .slice sl.id

def ptr (host : Host) (gpa : Nat) : Mapping → Nat
  | view => host.view + gpa
  | slice sl => host.userVa sl.id + (gpa - sl.pa)

/-- The daemon has the mapping, and the guest bytes from `gpa` to `fin` are in it. -/
def Covers (s : Backing) (gpa fin : Nat) : Mapping → Prop
  | view => fin ≤ s.windowBase ∧ ∃ bytes, s.ramView = some bytes ∧ fin ≤ bytes
  | slice sl => sl ∈ s.slices ∧ sl.Spans gpa fin

end Mapping

namespace Backing

/-- `resolve_gpa` on the main thread: the mapping its pointer is into. -/
def resolveMapping (s : Backing) (kmap : Kmap) (gpa len : Nat) : Option Mapping × Backing :=
  if s.ramViewPtr gpa len then (some .view, s)
  else
    match s.findSlice gpa len with
    | (some sl, s) => (some (.slice sl), s)
    | (none, s) =>
      match s.mapSlice kmap gpa with
      | (none, s) => (none, s)
      | (some sl, s) =>
        if ullong (gpa + len) < gpa ∨ sl.pa + sl.bytes < gpa + len then (none, s)
        else (some (.slice sl), s)

/-- The loop over one entry, as in `buildEntry`, with the iovecs. -/
def iovEntry (host : Host) (kmap : Kmap) : Nat → Nat → Nat → Build → List Buf → Build × List Buf
  | room, addr, left, b, iov =>
    if left = 0 then (b, iov)
    else
      match b.s.resolveRun kmap addr left with
      | (0, s) => ({ b with s := s, bad := true }, iov)
      | (run + 1, s) =>
        match room with
        | 0 => ({ b with s := s, bad := true }, iov)
        | room + 1 =>
          match s.resolveMapping kmap addr (run + 1) with
          | (none, s) => ({ b with s := s, bad := true }, iov)
          | (some m, s) =>
            match s.pinCollectAdd b.pins addr with
            | (pins, s) =>
              iovEntry host kmap room (addr + (run + 1)) (left - (run + 1))
                { s := s, pins := pins, iov := b.iov ++ [m.target], bad := b.bad }
                (iov ++ [⟨m.ptr host addr, run + 1⟩])

def iovEntries (host : Host) (kmap : Kmap) : List (Nat × Nat) → Build × List Buf → Build × List Buf
  | [], b => b
  | (addr, len) :: entries, b =>
    if b.1.bad then b
    else iovEntries host kmap entries (iovEntry host kmap (iovLimit - b.1.iov.length) addr len b.1 b.2)

/-- RESOURCE_ATTACH_BACKING once the entries are gathered: the iovecs the renderer accepts, if the answer is OK. -/
def attachEntries (host : Host) (s : Backing) (resId : Nat) (entries : List (Nat × Nat)) (a : Answers) :
    Option (List Buf) × Backing :=
  let b := iovEntries host a.kmap entries (⟨s, ⟨[], false⟩, [], false⟩, [])
  if b.1.bad then (none, b.1.s)
  else
    match b.1.s.resPinsCommit a.own a.grows resId b.1.pins with
    | (false, s) => (none, s)
    | (true, s) =>
      if b.1.iov = [] ∨ a.accepts = false then (none, s.resPinsDrop resId)
      else (some b.2, s.hold resId b.1.iov)

/-- RESOURCE_ATTACH_BACKING. Here `a.gathered` says whether `chain_gather` has memory. -/
def attachChain (host : Host) (s : Backing) (mem : Nat → UInt8) (ins : List Buf) (a : Answers) :
    Option (List Buf) × Backing :=
  match ins with
  | [] => (none, s)
  | inp :: rest =>
    if inp.len < headerBytes + 8 then (none, s)
    else
      let resId := le32 ((inp.content mem).drop headerBytes)
      let count := le32 ((inp.content mem).drop (headerBytes + 4))
      if count = 0 ∨ iovLimit < count then (none, s)
      else
        let list := gather mem (inp :: rest) (headerBytes + 8) (u32 (count * entryBytes))
        if a.gathered = false ∨ list.length < u32 (count * entryBytes) then (none, s)
        else attachEntries host s resId (entriesOf count list) a

structure Piece where
  mapping : Mapping
  gpa : Nat
  len : Nat

def Piece.buf (host : Host) (p : Piece) : Buf := ⟨p.mapping.ptr host p.gpa, p.len⟩

def Piece.range (p : Piece) : List Nat := List.range' p.gpa p.len

/-- The iovecs are the images of pieces which, one after the other, are these guest bytes, and each piece lies in one
mapping. -/
def Laid (host : Host) (s : Backing) (iov : List Buf) (ranges : List Nat) : Prop :=
  ∃ pieces : List Piece, iov = pieces.map (Piece.buf host) ∧
    (∀ p ∈ pieces, p.mapping.Covers s p.gpa (p.gpa + p.len)) ∧ pieces.flatMap Piece.range = ranges

def entryRanges (entries : List (Nat × Nat)) : List Nat := entries.flatMap fun e => List.range' e.1 e.2

end Backing

end MoCoLinux.Cogpu
