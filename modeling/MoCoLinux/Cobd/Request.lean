import MoCoLinux.Cobd.Async
import MoCoLinux.Kload.Memory

/-!
# Block requests (`kernel/cobd.c`)

`co_cobd_request_sg` reads descriptors from guest memory, each of which names a run of guest physical memory, and
`co_cobd_request` transfers one run, page by page. Both find guest memory by `co_kload_pseudo_frame_va`. The statistics
of `co_cobd_request_sg` are left out.
-/

namespace MoCoLinux.Cobd

def maxSg : Nat := 128

def maxSegment : Nat := 1 <<< 20

/-- `sizeof(co_cobd_sg_t)`. -/
def sgBytes : Nat := 16

/-- An entry of `cobd_unit` with a device: the size of the device. -/
structure Drive where
  size : Nat
  size_lt : size < 2 ^ 64

abbrev Memory : Type := Nat → UInt8

structure Transfer where
  offset : Nat
  buffer : Nat
  size : Nat
  write : Bool
  deriving DecidableEq, Repr

/-- `co_os_bdev_rw`: what a call returns, and what memory holds after it, given the calls before. -/
abbrev Device : Type := List Transfer → Transfer → Memory → Rc × Memory

/-- The loader, memory, and the history of the calls of `co_os_bdev_rw`. -/
structure Io where
  k : Kload
  mem : Memory
  issued : List Transfer

structure Sg where
  pa : Nat
  len : Nat
  deriving DecidableEq, Repr

def word : List UInt8 → Nat
  | [] => 0
  | b :: bs => b.toNat + 256 * word bs

def Sg.decode (bytes : List UInt8) : Sg := ⟨word (bytes.take 8), word ((bytes.drop 8).take 4)⟩

def drive (units : Nat → Option Drive) (unit : Int) : Option Drive :=
  if unit < 0 ∨ maxUnits ≤ unit then none else units unit.toNat

def chunk (pa size : Nat) : Nat :=
  if size < Arch.pageSize - (pa &&& (Arch.pageSize - 1)) then size else Arch.pageSize - (pa &&& (Arch.pageSize - 1))

def requestLoop (dev : Device) (write : Bool) : Nat → Io → Nat → Nat → Nat → Rc × Io
  | 0, io, _, _, _ => (.ok, io)
  | rounds + 1, io, offset, pa, size =>
    if size = 0 then (.ok, io)
    else
      let found := io.k.pseudoFrameVa (pa >>> 12)
      if found.1 = 0 then (.error, { io with k := found.2 })
      else
        let t : Transfer := ⟨offset, found.1 + (pa &&& (Arch.pageSize - 1)), chunk pa size, write⟩
        let done := dev io.issued t io.mem
        let io : Io := ⟨found.2, done.2, io.issued ++ [t]⟩
        if done.1 = .ok then
          requestLoop dev write rounds io (ullong (offset + chunk pa size)) (ullong (pa + chunk pa size))
            (size - chunk pa size)
        else (done.1, io)

def request (dev : Device) (units : Nat → Option Drive) (unit : Int) (offset pa size : Nat) (write : Bool) (io : Io) :
    Rc × Io :=
  match drive units unit with
  | none => (.invalidParameter, io)
  | some d =>
    if size = 0 then (.ok, io)
    else if d.size < offset ∨ d.size - offset < size then (.invalidParameter, io)
    else requestLoop dev write size io offset pa size

def Memory.bytes (mem : Memory) (address n : Nat) : List UInt8 := (List.range' address n).map mem

def readLoop (dpa : Nat) : Nat → Io → Nat → Option (List UInt8) × Io
  | 0, io, _ => (some [], io)
  | rounds + 1, io, got =>
    if sgBytes ≤ got then (some [], io)
    else
      let pa := ullong (dpa + got)
      let part := chunk pa (sgBytes - got)
      let found := io.k.pseudoFrameVa (pa >>> 12)
      let io := { io with k := found.2 }
      if found.1 = 0 then (none, io)
      else
        let rest := readLoop dpa rounds io (got + part)
        (rest.1.map (io.mem.bytes (found.1 + (pa &&& (Arch.pageSize - 1))) part ++ ·), rest.2)

/-- The loop of `co_cobd_request_sg` from descriptor `i` on, with `left` descriptors still to come. -/
def sgLoop (dev : Device) (units : Nat → Option Drive) (unit : Int) (sgPa : Nat) (write : Bool) :
    Nat → Io → Nat → Nat → Rc × Io
  | 0, io, _, _ => (.ok, io)
  | left + 1, io, i, offset =>
    let copied := readLoop (ullong (sgPa + i * sgBytes)) sgBytes io 0
    match copied.1 with
    | none => (.error, copied.2)
    | some bytes =>
      let d := Sg.decode bytes
      if d.len = 0 ∨ maxSegment < d.len then (.invalidParameter, copied.2)
      else
        let done := request dev units unit offset d.pa d.len write copied.2
        if done.1 = .ok then sgLoop dev units unit sgPa write left done.2 (i + 1) (ullong (offset + d.len))
        else done

def requestSg (dev : Device) (units : Nat → Option Drive) (unit : Int) (offset sgPa count : Nat) (write : Bool)
    (io : Io) : Rc × Io :=
  match drive units unit with
  | none => (.invalidParameter, io)
  | some _ =>
    if count = 0 ∨ maxSg < count then (.invalidParameter, io)
    else sgLoop dev units unit sgPa write count io 0 offset

def Transfer.cells (t : Transfer) : List (Nat × Nat) :=
  (List.range' t.offset t.size).zip (List.range' t.buffer t.size)

structure Transfer.Inside (t : Transfer) (d : Drive) (k : Kload) : Prop where
  device : t.offset + t.size ≤ d.size
  page : ∃ pfn < k.backedPages, Kload.hostVa k.block (pfn * 4096) ≤ t.buffer ∧
    t.buffer + t.size ≤ Kload.hostVa k.block (pfn * 4096) + 4096

def Sg.run (d : Sg) : List Nat := List.range' d.pa d.len

def sgAt (block : List Block) (mem : Memory) (pa : Nat) : Sg :=
  Sg.decode ((List.range' pa sgBytes).map fun a => mem (Kload.hostVa block a))

def described (block : List Block) (mem : Memory) (sgPa i left : Nat) : List Sg :=
  (List.range' i left).map fun n => sgAt block mem (sgPa + n * sgBytes)

def NoOverlap (sgPa count : Nat) (ds : List Sg) : Prop :=
  ∀ d ∈ ds, ∀ pa ∈ d.run, ¬ (sgPa ≤ pa ∧ pa < sgPa + count * sgBytes)

/-- `co_os_bdev_rw` changes no memory but its buffer. -/
def Device.Local (dev : Device) : Prop :=
  ∀ before t mem a, a < t.buffer ∨ t.buffer + t.size ≤ a → (dev before t mem).2 a = mem a

end MoCoLinux.Cobd
