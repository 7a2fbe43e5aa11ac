import MoCoLinux.Cogpu.Vring
import MoCoLinux.Net.Record

/-!
# Replies (`serve` in `cogpu-daemon.c`)

What `serve` stores into guest memory for each kind of request, and the length it returns. A byte of the request is read
once, so that its content is one function even where the guest changes it meanwhile. What the renderer, the driver and
the tables of the daemon answer is an argument.
-/

namespace MoCoLinux.Cogpu

open Net (word32)

inductive Command where
  | getDisplayInfo
  | resourceCreate2d
  | resourceUnref
  | attachBacking
  | detachBacking
  | getCapsetInfo
  | getCapset
  | getEdid
  | assignUuid
  | createBlob
  | ctxCreate
  | ctxDestroy
  | ctxAttachResource
  | ctxDetachResource
  | resourceCreate3d
  | transferToHost3d
  | transferFromHost3d
  | submit3d
  | mapBlob
  | unmapBlob
  | mocoPresent
  | unknown
  deriving DecidableEq, Repr

/-- The `VIRTIO_GPU_CMD_` values. Those of scanouts are among the unknown. -/
def Command.ofType : Nat → Command
  | 0x0100 => .getDisplayInfo
  | 0x0101 => .resourceCreate2d
  | 0x0102 => .resourceUnref
  | 0x0106 => .attachBacking
  | 0x0107 => .detachBacking
  | 0x0108 => .getCapsetInfo
  | 0x0109 => .getCapset
  | 0x010a => .getEdid
  | 0x010b => .assignUuid
  | 0x010c => .createBlob
  | 0x0200 => .ctxCreate
  | 0x0201 => .ctxDestroy
  | 0x0202 => .ctxAttachResource
  | 0x0203 => .ctxDetachResource
  | 0x0204 => .resourceCreate3d
  | 0x0205 => .transferToHost3d
  | 0x0206 => .transferFromHost3d
  | 0x0207 => .submit3d
  | 0x0208 => .mapBlob
  | 0x0209 => .unmapBlob
  | 0x0400 => .mocoPresent
  | _ => .unknown

def wordAt (content : Nat → UInt8) (offset : Nat) : Nat := Net.le32 (Net.bytesAt content offset 4)

structure Header where
  type : Nat
  flags : Nat
  fenceId : Nat
  ctxId : Nat
  ringIdx : Nat
  deriving DecidableEq, Repr

def Header.read (content : Nat → UInt8) : Header where
  type := wordAt content 0
  flags := wordAt content 4
  fenceId := wordAt content 8 + 2 ^ 32 * wordAt content 12
  ctxId := wordAt content 16
  ringIdx := (content 20).toNat

/-- `sizeof(struct virtio_gpu_ctrl_hdr)`. -/
def headerBytes : Nat := 24

/-- `VIRTIO_GPU_FLAG_FENCE`. -/
def Header.fenced (req : Header) : Bool := req.flags.testBit 0

/-- The bytes of the pieces that are left which `chain_gather` copies. -/
def gatherRest (want : Nat) : List Buf → Nat → Nat
  | [], done => done
  | buf :: bufs, done => if done < want then gatherRest want bufs (done + min buf.len (want - done)) else done

/-- `chain_gather` from the first piece on: how many bytes it finds after the first `skip`. -/
def chainGather (bufs : List Buf) (skip want : Nat) : Nat :=
  match bufs with
  | [] => 0
  | buf :: bufs => gatherRest want bufs (if buf.len ≤ skip then 0 else min (buf.len - skip) want)

inductive RespType where
  | okNodata
  | okDisplayInfo
  | okCapsetInfo
  | okCapset
  | okMapInfo
  | errUnspec
  deriving DecidableEq, Repr

def RespType.code : RespType → Nat
  | .okNodata => 0x1100
  | .okDisplayInfo => 0x1101
  | .okCapsetInfo => 0x1102
  | .okCapset => 0x1103
  | .okMapInfo => 0x1106
  | .errUnspec => 0x1200

structure Store where
  addr : Nat
  bytes : List UInt8
  deriving DecidableEq, Repr

structure Reply where
  stores : List Store
  written : Nat
  deriving DecidableEq, Repr

structure Backend where
  capset : Nat → Nat × Nat
  /-- The bytes `cogpu_vrend_fill_caps` writes for a capset and a version. -/
  fillCaps : Nat → Nat → List UInt8
  mapInfo : Nat
  /-- `chain_gather` has memory. -/
  memory : Bool
  /-- The calls after the tests of `serve` all go through. -/
  accepts : Bool

/-- `resp->type = type`. -/
def typeStore (out : Buf) (type : RespType) : Store := ⟨out.addr, word32 type.code⟩

namespace Reply

def bare (out : Buf) (type : RespType) : Reply := ⟨[typeStore out type], headerBytes⟩

def getDisplayInfo (out : Buf) : Reply :=
  if headerBytes < out.len then
    ⟨[typeStore out .okDisplayInfo, ⟨out.addr + headerBytes, List.replicate (out.len - headerBytes) 0⟩], out.len⟩
  else bare out .okDisplayInfo

def capsetId (index : Nat) : Nat := if index = 0 then 1 else if index = 1 then 2 else 4

def getCapsetInfo (b : Backend) (inp out : Buf) (content : Nat → UInt8) : Reply :=
  if out.len < headerBytes + 16 then bare out .errUnspec
  else
    let index := if headerBytes + 8 ≤ inp.len then wordAt content headerBytes else 0
    let capset := b.capset (capsetId index)
    let info := out.addr + headerBytes
    -- the renderer gets pointers into the reply, which are cleared first
    ⟨[⟨info, word32 (capsetId index)⟩, ⟨info + 4, word32 0⟩, ⟨info + 8, word32 0⟩, ⟨info + 4, word32 capset.1⟩,
      ⟨info + 8, word32 capset.2⟩, ⟨info + 12, word32 0⟩, typeStore out .okCapsetInfo], headerBytes + 16⟩

def getCapset (b : Backend) (inp out : Buf) (content : Nat → UInt8) : Reply :=
  if inp.len < headerBytes + 8 then bare out .errUnspec
  else if headerBytes < out.len then
    ⟨[⟨out.addr + headerBytes, b.fillCaps (wordAt content headerBytes) (wordAt content (headerBytes + 4))⟩,
      typeStore out .okCapset], out.len⟩
  else bare out .okCapset

def mapBlob (b : Backend) (inp out : Buf) : Reply :=
  if inp.len < headerBytes + 16 ∨ out.len < headerBytes + 8 then bare out .errUnspec
  else if b.accepts then
    ⟨[⟨out.addr + headerBytes, word32 b.mapInfo⟩, ⟨out.addr + headerBytes + 4, word32 0⟩, typeStore out .okMapInfo],
      headerBytes + 8⟩
  else bare out .errUnspec

end Reply

def Backend.answer (b : Backend) : RespType := if b.accepts then .okNodata else .errUnspec

def payload (inp : Buf) (bytes : Nat) (type : RespType) : RespType :=
  if inp.len < headerBytes + bytes then .errUnspec else type

def Backend.gathered (b : Backend) (bufs : List Buf) (skip want : Nat) : RespType :=
  if b.memory = false ∨ chainGather bufs skip want < want then .errUnspec else b.answer

def Backend.submit3d (b : Backend) (bufs : List Buf) (inp : Buf) (content : Nat → UInt8) : RespType :=
  let size := wordAt content headerBytes
  payload inp 8 (if size = 0 then .okNodata else b.gathered bufs (headerBytes + 8) size)

def Backend.attachBacking (b : Backend) (bufs : List Buf) (inp : Buf) (content : Nat → UInt8) : RespType :=
  let entries := wordAt content (headerBytes + 4)
  payload inp 8 (if entries = 0 ∨ 16384 < entries then .errUnspec
    else b.gathered bufs (headerBytes + 8) (u32 (entries * 16)))

def Backend.createBlob (b : Backend) (bufs : List Buf) (inp : Buf) (content : Nat → UInt8) : RespType :=
  let entries := wordAt content (headerBytes + 12)
  payload inp 32 (if 16384 < entries then .errUnspec
    else if 0 < entries then b.gathered bufs (headerBytes + 32) (u32 (entries * 16)) else b.answer)

def Command.reply (b : Backend) (bufs : List Buf) (inp out : Buf) (content : Nat → UInt8) : Command → Reply
  | .getDisplayInfo => .getDisplayInfo out
  | .getCapsetInfo => .getCapsetInfo b inp out content
  | .getCapset => .getCapset b inp out content
  | .mapBlob => .mapBlob b inp out
  | .submit3d => .bare out (b.submit3d bufs inp content)
  | .attachBacking => .bare out (b.attachBacking bufs inp content)
  | .createBlob => .bare out (b.createBlob bufs inp content)
  | .ctxCreate => .bare out b.answer
  | .resourceCreate2d => .bare out (payload inp 16 b.answer)
  | .resourceCreate3d => .bare out (payload inp 48 b.answer)
  | .transferToHost3d => .bare out (payload inp 48 b.answer)
  | .transferFromHost3d => .bare out (payload inp 48 b.answer)
  | .mocoPresent => .bare out (payload inp 24 b.answer)
  | .unmapBlob => .bare out (payload inp 8 b.answer)
  | .resourceUnref => .bare out (payload inp 8 .okNodata)
  | .ctxDestroy => .bare out .okNodata
  | .detachBacking => .bare out .okNodata
  | .ctxAttachResource => .bare out .okNodata
  | .ctxDetachResource => .bare out .okNodata
  | .assignUuid => .bare out .errUnspec
  | .getEdid => .bare out .errUnspec
  | .unknown => .bare out .okNodata

def fenceStores (out : Buf) (req : Header) : List Store :=
  if req.fenced then
    [⟨out.addr + 4, word32 (req.flags &&& 3)⟩, ⟨out.addr + 8, word32 req.fenceId ++ word32 (req.fenceId / 2 ^ 32)⟩,
      ⟨out.addr + 16, word32 req.ctxId⟩, ⟨out.addr + 20, [.ofNat req.ringIdx]⟩]
  else []

def serve (b : Backend) (chain : Chain) (content : Nat → UInt8) : Reply :=
  match chain.ins, chain.outs with
  | inp :: _, out :: _ =>
    if inp.len < headerBytes ∨ out.len < headerBytes then ⟨[], 0⟩
    else
      let req := Header.read content
      let reply := (Command.ofType req.type).reply b chain.ins inp out content
      ⟨⟨out.addr, List.replicate headerBytes 0⟩ :: reply.stores ++ fenceStores out req, reply.written⟩
  | _, _ => ⟨[], 0⟩

def Store.Inside (st : Store) (out : Buf) : Prop :=
  ∀ i < st.bytes.length, out.addr ≤ st.addr + i ∧ st.addr + i < out.addr + out.len

/-- Every byte is stored in the buffer, and the length is at most that of the buffer. -/
def Reply.Fits (reply : Reply) (out : Buf) : Prop := (∀ st ∈ reply.stores, st.Inside out) ∧ reply.written ≤ out.len

def Backend.FillsExactly (b : Backend) : Prop := ∀ set version, (b.fillCaps set version).length = (b.capset set).2

/-- A request for a capset that reaches the renderer leaves room for it. -/
def CapsetFits (b : Backend) (inp out : Buf) (content : Nat → UInt8) : Prop :=
  Command.ofType (Header.read content).type = .getCapset → headerBytes + 8 ≤ inp.len → headerBytes < out.len →
    headerBytes + (b.capset (wordAt content headerBytes)).2 ≤ out.len

instance (b : Backend) (inp out : Buf) (content : Nat → UInt8) : Decidable (CapsetFits b inp out content) :=
  inferInstanceAs (Decidable (_ → _))

end MoCoLinux.Cogpu
