import MoCoLinux.Arch.Mmu
import MoCoLinux.Common
import MoCoLinux.Lib.Runs
import MoCoLinux.Lib.SlotTable

/-!
# Blobs in the window arena (`cogpu-daemon.c`)

The requests that create, map, present and release blob resources. The renderer and the driver are seen through
what they answer. The renderer refuses resource id zero and an id it still knows, and it holds at most one mapping of
a resource; the driver maps nothing over a window it has. A request whose descriptor is too short is answered with an
error before anything else and is left out.
-/

namespace MoCoLinux.Cogpu

open Function

/-! ## The renderer -/

/-- What virglrenderer has: the resource each id names, where each resource is mapped, and how many resources were
created. -/
structure Renderer where
  live : Nat → Option Nat
  held : Nat → Option Nat
  created : Nat

namespace Renderer

/-- `cogpu_vrend_create_blob` and `cogpu_vrend_resource_create`, where `ok` says whether the renderer can. -/
def create (r : Renderer) (ok : Bool) (resId : Nat) : Bool × Renderer :=
  if ok = true ∧ resId ≠ 0 ∧ r.live resId = none then
    (true, { r with live := update r.live resId (some r.created), created := r.created + 1 })
  else (false, r)

/-- `cogpu_vrend_resource_map`, with the address and size it would give. -/
def map (r : Renderer) (answer : Option (Nat × Nat)) (resId : Nat) : Option (Nat × Nat) × Renderer :=
  match r.live resId, answer with
  | some resource, some (va, size) =>
    if r.held resource = none then
      (some (va, size), { r with held := update r.held resource (some va) })
    else (none, r)
  | _, _ => (none, r)

def unmap (r : Renderer) (ok : Bool) (resId : Nat) : Renderer :=
  match r.live resId with
  | some resource => if ok then { r with held := update r.held resource none } else r
  | none => r

def unref (r : Renderer) (resId : Nat) : Renderer :=
  match r.live resId with
  | some resource =>
    { r with live := update r.live resId none, held := update r.held resource none }
  | none => r

end Renderer

/-! ## The table of mapped blobs -/

/-- `struct cogpu_blob_map`, with the resource that was mapped. -/
structure BlobMap where
  resId : Nat
  pseudoPa : Nat
  bytes : Nat
  hostVa : Nat
  resource : Nat
  deriving DecidableEq, Repr

def BlobMap.isFree (b : BlobMap) : Bool := b.resId == 0

def blobMapFind (t : List BlobMap) (resId : Nat) : Option BlobMap :=
  if resId = 0 then none else t.find? fun b => b.resId == resId

/-- `blob_map_track`, where `grows` says whether `realloc` has memory. -/
def blobMapTrack (t : List BlobMap) (grows : Bool) (b : BlobMap) : Option (List BlobMap) :=
  match SlotTable.place BlobMap.isFree b t with
  | some t' => some t'
  | none =>
    let want := if t.length = 0 then 1024 else t.length * 2
    if grows then some (t ++ b :: List.replicate (want - t.length - 1) ⟨0, 0, 0, 0, 0⟩) else none

def blobMapForget (t : List BlobMap) (resId : Nat) : List BlobMap :=
  if resId = 0 then t else SlotTable.modifyFirst (fun b => b.resId == resId) (fun b => { b with resId := 0 }) t

/-! ## The daemon -/

structure Window where
  pseudoPa : Nat
  bytes : Nat
  resource : Nat
  deriving DecidableEq, Repr

structure BridgeSlot where
  xid : Nat
  ctxId : Nat
  width : Nat
  height : Nat
  used : Nat

/-- The daemon, the renderer and the windows of the daemon's handle. -/
structure Gpu where
  blobMap : List BlobMap
  bridge : Nat → BridgeSlot
  bridgeClock : Nat
  windowBase : Nat
  windowTop : Nat
  renderer : Renderer
  windows : List Window
  forwarded : List (Nat × Nat)
  /-- History: the addresses MOCO_PRESENT read through, each with the one at which the renderer held the live
  resource of that id then. -/
  reads : List (Nat × Option Nat)

inductive Resp where
  | errUnspec
  | okNodata
  | okMapInfo
  deriving DecidableEq, Repr

/-- The answers of the driver to KWINDOW_AT. The last is an OK for a window that is not there. -/
inductive WindowAnswer where
  | refused
  | mapped
  | onlyReported
  deriving DecidableEq

structure MapAnswers where
  map : Option (Nat × Nat)
  window : WindowAnswer
  grows : Bool
  unwindowOk : Bool
  unmapOk : Bool

namespace Gpu

def holding (s : Gpu) (resId : Nat) : Option Nat := (s.renderer.live resId).bind s.renderer.held

def resourceUnmap (s : Gpu) (ok : Bool) (resId : Nat) : Gpu := { s with renderer := s.renderer.unmap ok resId }

def Overlaps (w w' : Window) : Prop := w.pseudoPa < w'.pseudoPa + w'.bytes ∧ w'.pseudoPa < w.pseudoPa + w.bytes

instance (w w' : Window) : Decidable (Overlaps w w') := inferInstanceAs (Decidable (_ ∧ _))

/-- `co_manager_kwindow_at`: what is reported, and the state. -/
def kwindowAt (s : Gpu) (answer : WindowAnswer) (w : Window) : Bool × Gpu :=
  let s := { s with forwarded := s.forwarded ++ [(w.pseudoPa, w.bytes)] }
  if answer = .refused ∨ w.bytes = 0 ∨ ∃ w' ∈ s.windows, Overlaps w w' then (false, s)
  else if answer = .mapped then (true, { s with windows := w :: s.windows })
  else (true, s)

def kunwindow (s : Gpu) (ok : Bool) (pseudoPa bytes : Nat) : Gpu :=
  if ok then
    { s with windows := s.windows.eraseP fun w => decide (w.pseudoPa = pseudoPa ∧ w.bytes = bytes) }
  else s

/-- RESOURCE_CREATE_BLOB, where `ok` says that nothing before the renderer refuses it, nor the renderer. -/
def createBlob (s : Gpu) (ok : Bool) (resId : Nat) : Resp × Gpu :=
  match s.renderer.create ok resId with
  | (true, renderer) => (.okNodata, { s with renderer := renderer })
  | (false, _) => (.errUnspec, s)

def mappedBytes (size : Nat) : Nat := ullong (size + 0xfff) &&& Arch.pageMask

/-- The rest of RESOURCE_MAP_BLOB once the renderer has mapped the resource. -/
def mapWindow (s : Gpu) (resId offset va size : Nat) (a : MapAnswers) : Resp × Gpu :=
  let bytes := mappedBytes size
  let pseudoPa := ullong (s.windowBase + offset)
  let resource := (s.renderer.live resId).getD 0
  if s.windowTop = 0 ∨ pseudoPa < s.windowBase ∨ s.windowTop < ullong (pseudoPa + bytes) then
    (.errUnspec, s.resourceUnmap a.unmapOk resId)
  else
    match s.kwindowAt a.window ⟨pseudoPa, bytes, resource⟩ with
    | (false, s) => (.errUnspec, s.resourceUnmap a.unmapOk resId)
    | (true, s) =>
      match blobMapTrack s.blobMap a.grows ⟨resId, pseudoPa, bytes, va, resource⟩ with
      | none => (.errUnspec, (s.kunwindow a.unwindowOk pseudoPa bytes).resourceUnmap a.unmapOk resId)
      | some t => (.okMapInfo, { s with blobMap := t })

def mapBlob (s : Gpu) (resId offset : Nat) (a : MapAnswers) : Resp × Gpu :=
  if (blobMapFind s.blobMap resId).isSome then (.errUnspec, s)
  else
    match s.renderer.map a.map resId with
    | (none, _) => (.errUnspec, s)
    | (some (va, size), renderer) =>
      let s := { s with renderer := renderer }
      if va = 0 ∨ size = 0 then (.errUnspec, s)
      else if va &&& 0xfff ≠ 0 then (.errUnspec, s.resourceUnmap a.unmapOk resId)
      else s.mapWindow resId offset va size a

def unmapBlob (s : Gpu) (resId : Nat) (unwindowOk unmapOk : Bool) : Resp × Gpu :=
  match blobMapFind s.blobMap resId with
  | none => (.errUnspec, s)
  | some bm =>
    let s := (s.kunwindow unwindowOk bm.pseudoPa bm.bytes).resourceUnmap unmapOk resId
    (.okNodata, { s with blobMap := blobMapForget s.blobMap resId })

/-! ## Presenting -/

def bridgeSlots : Nat := 8

def bridgeRes (slot : Nat) : Nat := 0x4d4f4300 + slot

def findSlot (s : Gpu) (p : BridgeSlot → Bool) : Option Nat := (List.range bridgeSlots).find? fun i => p (s.bridge i)

def oldestSlot (s : Gpu) : Nat :=
  (List.range bridgeSlots).foldl (fun pick i => if (s.bridge i).used < (s.bridge pick).used then i else pick) 0

def setSlot (s : Gpu) (i : Nat) (slot : BridgeSlot) : Gpu := { s with bridge := update s.bridge i slot }

def dropSlot (s : Gpu) (i : Nat) : Gpu :=
  if (s.bridge i).width ≠ 0 then { s with renderer := s.renderer.unref (bridgeRes i) } else s

/-- The slot for a window, and the state after an older window had to give way. -/
def pickSlot (s : Gpu) (xid : Nat) : Nat × Gpu :=
  match s.findSlot fun slot => slot.xid == xid with
  | some i => (i, s)
  | none =>
    match s.findSlot fun slot => slot.xid == 0 with
    | some i => (i, s)
    | none =>
      let pick := s.oldestSlot
      (pick, (s.dropSlot pick).setSlot pick { s.bridge pick with width := 0, height := 0 })

/-- `moco_bridge_resource`: whether there is a texture, and the state. -/
def bridgeResource (s : Gpu) (ok : Bool) (xid ctxId width height : Nat) : Bool × Gpu :=
  match s.pickSlot xid with
  | (pick, s) =>
    let slot : BridgeSlot := { s.bridge pick with xid := xid, ctxId := ctxId, used := s.bridgeClock + 1 }
    let s := { s.setSlot pick slot with bridgeClock := s.bridgeClock + 1 }
    if slot.width = width ∧ slot.height = height then (true, s)
    else
      let s := s.dropSlot pick
      match s.renderer.create ok (bridgeRes pick) with
      | (true, renderer) =>
        (true, { s.setSlot pick { slot with width := width, height := height } with renderer := renderer })
      | (false, _) => (false, s.setSlot pick { slot with width := 0, height := 0 })

structure Frame where
  xid : Nat
  ctxId : Nat
  width : Nat
  height : Nat
  stride : Nat

def present (s : Gpu) (resId : Nat) (f : Frame) (bridgeOk uploadOk : Bool) : Resp × Gpu :=
  match blobMapFind s.blobMap resId with
  | none => (.errUnspec, s)
  | some bm =>
    if bm.hostVa = 0 ∨ bm.bytes < f.stride * f.height then (.errUnspec, s)
    else
      match s.bridgeResource bridgeOk f.xid f.ctxId f.width f.height with
      | (false, s) => (.errUnspec, s)
      | (true, s) =>
        (if uploadOk then .okNodata else .errUnspec, { s with reads := (bm.hostVa, s.holding resId) :: s.reads })

def resourceUnref (s : Gpu) (resId : Nat) : Resp × Gpu :=
  (.okNodata, { s with renderer := s.renderer.unref resId })

/-! ## Runs -/

inductive Request where
  | createBlob (resId : Nat) (ok : Bool)
  | mapBlob (resId offset : Nat) (a : MapAnswers)
  | unmapBlob (resId : Nat) (unwindowOk unmapOk : Bool)
  | present (resId : Nat) (f : Frame) (bridgeOk uploadOk : Bool)
  | unref (resId : Nat)

def serve (s : Gpu) : Request → Resp × Gpu
  | .createBlob resId ok => s.createBlob ok resId
  | .mapBlob resId offset a => s.mapBlob resId offset a
  | .unmapBlob resId unwindowOk unmapOk => s.unmapBlob resId unwindowOk unmapOk
  | .present resId f bridgeOk uploadOk => s.present resId f bridgeOk uploadOk
  | .unref resId => s.resourceUnref resId

def initial (base top : Nat) : Gpu where
  blobMap := []
  bridge := fun _ => ⟨0, 0, 0, 0, 0⟩
  bridgeClock := 0
  windowBase := base
  windowTop := top
  renderer := ⟨fun _ => none, fun _ => none, 0⟩
  windows := []
  forwarded := []
  reads := []

def Reachable (ok : Gpu → Request → Prop) : Gpu → Prop :=
  Runs.Reach (fun s => ∃ base top, s = initial base top) fun s request s' => ok s request ∧ s' = (s.serve request).2

/-! ## What the table is for -/

def entries (s : Gpu) : List BlobMap := SlotTable.used BlobMap.isFree s.blobMap

def window (b : BlobMap) : Window := ⟨b.pseudoPa, b.bytes, b.resource⟩

def Shown (s : Gpu) (resource : Nat) : Prop := ∃ w ∈ s.windows, w.resource = resource

/-- There is one entry for each id whose live resource is mapped by the renderer and shown in a window, naming that
window and mapping, and no other. No window shows a resource that is not live, and MOCO_PRESENT has read only through
the mapping of a live one. -/
structure Exact (s : Gpu) : Prop where
  unique : (s.entries.map BlobMap.resId).Nodup
  entry : ∀ resId, (∃ b ∈ s.entries, b.resId = resId) ↔
    ∃ resource, s.renderer.live resId = some resource ∧ (s.renderer.held resource).isSome ∧ s.Shown resource
  names : ∀ b ∈ s.entries, window b ∈ s.windows ∧ s.renderer.live b.resId = some b.resource ∧
    s.renderer.held b.resource = some b.hostVa
  released : ∀ w ∈ s.windows, ∃ resId, s.renderer.live resId = some w.resource
  reads : ∀ r ∈ s.reads, r.2 = some r.1

end Gpu

end MoCoLinux.Cogpu
