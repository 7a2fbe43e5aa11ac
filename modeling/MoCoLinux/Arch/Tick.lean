import MoCoLinux.Arch.Space
import MoCoLinux.Lib.LittleEndian

/-!
# Injecting a tick into the guest (`co_arch_inject_tick` in `switch.c`)

The host edits the interrupt frame the stub left on the guest's stack, so that the guest resumes in its tick handler with
the interrupted context below. It reaches the frame through the guest's own tables (`kload_xfer_cr3` in `kload.c`), one
page at a time, and every lookup may fail.
-/

namespace MoCoLinux.Arch.Tick

abbrev Bytes := Nat → Nat → UInt8

namespace Bytes

def read (b : Bytes) (pfn offset n : Nat) : List UInt8 := (List.range n).map fun i => b pfn (offset + i)

def store (b : Bytes) (pfn offset : Nat) (bs : List UInt8) : Bytes := fun q o =>
  if q = pfn ∧ offset ≤ o ∧ o < offset + bs.length then bs.getD (o - offset) 0 else b q o

def mem (b : Bytes) : Mem := fun pfn i => LittleEndian.word (b.read pfn (8 * i) 8)

end Bytes

inductive Phase where
  | ipi
  | vif
  | frame
  | stack
  | entry
  deriving DecidableEq, Repr

/-- What a call is given besides memory: `co_vcpu_ctl_t`, the vCPU's index, `linuxvm_state` and `params[28]` of the
passage page, `out->idle_yields` and the clock. -/
structure Call where
  tickEntryVa : Nat
  virtualIfVa : Nat
  ipiPendingVa : Nat
  vcpuIndex : Nat
  cr3 : Nat
  cs : Nat
  ss : Nat
  frameVa : Nat
  idleYields : Nat
  now : Nat
  /-- Whether the `k`-th lookup of a transfer fails, whatever the tables hold. -/
  fails : Phase → Nat → Bool
  owned : Nat → Bool
  words : tickEntryVa < 2 ^ 64 ∧ cs < 2 ^ 64 ∧ ss < 2 ^ 64 ∧ frameVa < 2 ^ 64
  kernel : cs % 4 = 0 ∧ ss % 4 = 0

/-- What a call changes: the guest's memory, `*last` and `out->ticks_injected`. -/
structure Guest where
  bytes : Bytes
  last : Nat
  ticksInjected : Nat

/-- The tables of a guest are always mapped for a lookup; a map that fails is one of `Call.fails`. -/
def lookupHost : SpaceHost Unit where
  frameSource := none
  getPage t := (.error .error, t)
  putPage t _ := t
  map t _ := (true, t)

namespace Call

variable (c : Call)

def root : Nat := (c.cr3 &&& pageMask) >>> 12

def lookup (b : Bytes) (va : Nat) : Lookup := (guestLookupRoot lookupHost c.root va () b.mem).1

/-- The frame `kload_xfer_cr3` copies from or to, if the tables name one and the host knows it. -/
def find (b : Bytes) (va : Nat) : Option Nat :=
  let r := c.lookup b va
  if r.rc = .ok ∧ r.pa ≠ 0 ∧ c.owned (r.pa >>> 12) = true then some (r.pa >>> 12) else none

def resolve (phase : Phase) (k : Nat) (b : Bytes) (va : Nat) : Option Nat :=
  if c.fails phase k then none else c.find b va

/-- The loop of `kload_xfer_cr3`, at its `k`-th lookup. `buf` is the rest of the buffer; a read returns what it copied
over it. -/
def xferLoop (phase : Phase) (write : Bool) :
    Nat → Nat → Nat → List UInt8 → Bytes → Bool × List UInt8 × Bytes
  | 0, _, _, buf, b => (buf.isEmpty, buf, b)
  | fuel + 1, k, va, buf, b =>
    if buf.isEmpty then (true, buf, b)
    else
      let offset := va % pageSize
      let part := min (pageSize - offset) buf.length
      match c.resolve phase k b va with
      | none => (false, buf, b)
      | some pfn =>
        let here := if write then buf.take part else b.read pfn offset part
        let b := if write then b.store pfn offset here else b
        let (ok, rest, b) := xferLoop phase write fuel (k + 1) (ullong (va + part)) (buf.drop part) b
        (ok, here ++ rest, b)

/-- `kload_xfer_cr3`. Every round moves a byte at least. -/
def xferCr3 (phase : Phase) (write : Bool) (va : Nat) (buf : List UInt8) (b : Bytes) :
    Bool × List UInt8 × Bytes :=
  if c.cr3 = 0 then (false, buf, b) else c.xferLoop phase write buf.length 0 va buf b

def readCr3 (phase : Phase) (b : Bytes) (va size : Nat) : Option (List UInt8) :=
  let r := c.xferCr3 phase false va (List.replicate size 0) b
  if r.1 then some r.2.1 else none

def writeCr3 (phase : Phase) (b : Bytes) (va : Nat) (buf : List UInt8) : Bool × Bytes :=
  let r := c.xferCr3 phase true va buf b
  (r.1, r.2.2)

end Call

structure Iret where
  rip : Nat
  cs : Nat
  rflags : Nat
  rsp : Nat
  ss : Nat
  deriving DecidableEq, Repr

namespace Iret

def bytes (f : Iret) : List UInt8 :=
  LittleEndian.bytes 8 f.rip ++ LittleEndian.bytes 8 f.cs ++ LittleEndian.bytes 8 f.rflags ++
    LittleEndian.bytes 8 f.rsp ++ LittleEndian.bytes 8 f.ss

def Fits (f : Iret) : Prop :=
  f.rip < 2 ^ 64 ∧ f.cs < 2 ^ 64 ∧ f.rflags < 2 ^ 64 ∧ f.rsp < 2 ^ 64 ∧ f.ss < 2 ^ 64

def decode (bs : List UInt8) : Iret :=
  let word i := LittleEndian.word ((bs.drop (8 * i)).take 8)
  ⟨word 0, word 1, word 2, word 3, word 4⟩

end Iret

def period : Nat := 10000000 / 100

namespace Call

variable (c : Call)

def guestIpiPending (b : Bytes) : Bool :=
  if c.ipiPendingVa = 0 then false
  else
    match c.readCr3 .ipi b (ullong (c.ipiPendingVa + c.vcpuIndex * 32)) 32 with
    | none => false
    | some pending => (List.range 4).any fun i => LittleEndian.word ((pending.drop (8 * i)).take 8) != 0

def savedVa : Nat := ullong (c.frameVa + 0x88)

def vifVa : Nat := ullong (c.virtualIfVa + c.vcpuIndex * 8)

/-- The context a tick may interrupt: the guest's own interrupt flag is set, the saved one too, and it ran in ring 3. -/
def interrupted (b : Bytes) : Option Iret :=
  match c.readCr3 .vif b c.vifVa 8 with
  | none => none
  | some vif =>
    if LittleEndian.word vif &&& 0x200 = 0 then none
    else
      match c.readCr3 .frame b c.savedVa 40 with
      | none => none
      | some bs =>
        let f := Iret.decode bs
        if f.rflags &&& 0x200 = 0 then none
        else if f.cs &&& 3 ≠ 3 then none
        else some f

def newsp : Nat := ullongSub c.frameVa 0x40 &&& 0xfffffffffffffff0

def enter (f : Iret) : Iret := ⟨c.tickEntryVa, c.cs, f.rflags &&& 0xfffffffffffffdff, c.newsp, c.ss⟩

def deliver (f : Iret) (b : Bytes) : Bool × Bytes :=
  match c.writeCr3 .stack b c.newsp f.bytes with
  | (false, b) => (false, b)
  | (true, b) => c.writeCr3 .entry b c.savedVa (c.enter f).bytes

def injectTick (g : Guest) : Guest :=
  if c.tickEntryVa = 0 ∨ c.virtualIfVa = 0 then g
  -- not until the guest has idled at least once
  else if c.idleYields = 0 then g
  else if c.frameVa = 0 then g
  else if c.guestIpiPending g.bytes = false ∧ g.last = 0 then { g with last := c.now }
  else if c.guestIpiPending g.bytes = false ∧ ullongSub c.now g.last < period then g
  else
    match c.interrupted g.bytes with
    | none => g
    | some f =>
      match c.deliver f g.bytes with
      | (false, b) => { g with bytes := b }
      | (true, b) => ⟨b, c.now, ulong (g.ticksInjected + 1)⟩

end Call

def walk (m : Mem) (va : Nat) : Nat → Nat → Option Nat
  | 0, pfn =>
    let entry := m pfn (spaceIndex va 3)
    if isPresent entry then some (entryPfn entry) else none
  | left + 1, pfn =>
    let entry := m pfn (spaceIndex va (2 - left))
    if isPresent entry then
      if isLarge entry then
        -- the bit is reserved in the root
        if left = 2 then none
        else some (entryPfn entry / 512 ^ (left + 1) * 512 ^ (left + 1) + va / pageSize % 512 ^ (left + 1))
      else walk m va left (entryPfn entry)
    else none

def walkTables (m : Mem) (va : Nat) : Nat → Nat → List Nat
  | 0, pfn => [pfn]
  | left + 1, pfn =>
    let entry := m pfn (spaceIndex va (2 - left))
    pfn :: if isPresent entry && !isLarge entry then walkTables m va left (entryPfn entry) else []

namespace Bytes

def translate (b : Bytes) (root va : Nat) : Option Nat := if vaCanonical va then walk b.mem va 3 root else none

def tables (b : Bytes) (root va : Nat) : List Nat := if vaCanonical va then walkTables b.mem va 3 root else []

def guestByte (b : Bytes) (root va : Nat) : Option UInt8 :=
  (b.translate root (ullong va)).map fun pfn => b pfn (va % pageSize)

def Holds (b : Bytes) (root va : Nat) (bs : List UInt8) : Prop :=
  ∀ k < bs.length, b.guestByte root (va + k) = bs[k]?

end Bytes

namespace Call

variable (c : Call)

/-- The stub's frame, vector and registers included, reads the same. -/
def Unchanged (b b' : Bytes) : Prop :=
  ∀ k < 0xb0, b'.guestByte c.root (c.frameVa + k) = b.guestByte c.root (c.frameVa + k)

/-- A tick was delivered over the context `f`, to a vCPU whose interrupt flag word was `vif`. -/
structure Delivered (b b' : Bytes) (f : Iret) (vif : Nat) : Prop where
  idled : c.idleYields ≠ 0
  fits : f.Fits
  saved : b.Holds c.root (c.frameVa + 0x88) f.bytes
  ring3 : f.cs % 4 = 3
  rflags : f.rflags.testBit 9 = true
  flag : b.Holds c.root c.vifVa (LittleEndian.bytes 8 vif)
  vif : vif.testBit 9 = true
  registers : ∀ k < 0x88, b'.guestByte c.root (c.frameVa + k) = b.guestByte c.root (c.frameVa + k)
  entered : b'.Holds c.root (c.frameVa + 0x88) (c.enter f).bytes
  kernel : (c.enter f).cs % 4 = 0 ∧ (c.enter f).ss % 4 = 0
  masked : (c.enter f).rflags.testBit 9 = false
  stack : b'.Holds c.root (c.enter f).rsp f.bytes
  below : (c.enter f).rsp + 40 ≤ c.frameVa

def Whole (b b' : Bytes) : Prop := c.Unchanged b b' ∨ ∃ f vif, c.Delivered b b' f vif

def Small (b : Bytes) (va : Nat) : Prop := (c.lookup b va).rc = .ok → (c.lookup b va).level = -1

def nextPage (va : Nat) : Nat := ullong (va + (pageSize - va % pageSize))

def walks (phase : Phase) (b : Bytes) (va size : Nat) : List Nat :=
  if va % pageSize + size ≤ pageSize ∨ c.resolve phase 0 b va = none then [va] else [va, nextPage va]

/-- The bytes a transfer moves before a lookup fails, for one that touches two pages at most. -/
def reach (phase : Phase) (b : Bytes) (va size : Nat) : Nat :=
  if c.cr3 = 0 ∨ c.resolve phase 0 b va = none then 0
  else if va % pageSize + size ≤ pageSize then size
  else if c.resolve phase 1 b (nextPage va) = none then pageSize - va % pageSize
  else size

def Due (g : Guest) : Prop :=
  c.tickEntryVa ≠ 0 ∧ c.virtualIfVa ≠ 0 ∧ c.idleYields ≠ 0 ∧ c.frameVa ≠ 0 ∧
    (c.guestIpiPending g.bytes = true ∨ g.last ≠ 0 ∧ period ≤ ullongSub c.now g.last)

/-- The walks the call makes for the flag, the frame and the new stack meet no large page. -/
structure NoLarge (g : Guest) : Prop where
  vif : c.Due g → ∀ va ∈ c.walks .vif g.bytes c.vifVa 8, c.Small g.bytes va
  frame : c.Due g → ∀ vif, c.readCr3 .vif g.bytes c.vifVa 8 = some vif → LittleEndian.word vif &&& 0x200 ≠ 0 →
    ∀ va ∈ c.walks .frame g.bytes c.savedVa 40, c.Small g.bytes va
  stack : c.Due g → ∀ f, c.interrupted g.bytes = some f →
    ∀ va ∈ c.walks .stack g.bytes c.newsp 40, c.Small g.bytes va

def written : List Nat :=
  (List.range 40).map (fun k => ullong (c.newsp + k)) ++ (List.range 40).map fun k => ullong (c.frameVa + 0x88 + k)

def span : List Nat :=
  (List.range 40).map (fun k => ullong (c.newsp + k)) ++ (List.range 0xb0).map fun k => ullong (c.frameVa + k)

/-- No page of these words is a table that maps the frame or the stack below it. -/
def Clear (b : Bytes) : Prop :=
  ∀ va ∈ c.written, ∀ pfn, b.translate c.root va = some pfn → ∀ va' ∈ c.span, pfn ∉ b.tables c.root va'

/-- When the call writes, its pages are clear of the tables. -/
def Apart (g : Guest) : Prop := c.Due g → ∀ f, c.interrupted g.bytes = some f → c.Clear g.bytes

/-- The frame's words lie in two pages, and the lookup of the second fails when the words of the first are written. -/
def Torn (g : Guest) : Prop :=
  c.Due g ∧ ∃ f, c.interrupted g.bytes = some f ∧ c.reach .stack g.bytes c.newsp 40 = 40 ∧
    (c.enter f).bytes.take (c.reach .entry g.bytes c.savedVa 40) ≠ f.bytes.take (c.reach .entry g.bytes c.savedVa 40) ∧
    (c.enter f).bytes.drop (c.reach .entry g.bytes c.savedVa 40) ≠ f.bytes.drop (c.reach .entry g.bytes c.savedVa 40)

/-- There is no room for the words below the frame, and they go to the end of the address space. -/
def Wrapped (g : Guest) : Prop :=
  c.Due g ∧ c.frameVa < 0x40 ∧ ∃ f, c.interrupted g.bytes = some f ∧ c.reach .stack g.bytes c.newsp 40 = 40 ∧
    c.reach .entry g.bytes c.savedVa 40 = 40

end Call

end MoCoLinux.Arch.Tick
