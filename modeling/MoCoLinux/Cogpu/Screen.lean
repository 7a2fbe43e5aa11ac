import MoCoLinux.Cogpu.Blob

/-!
# Contexts, bridges and presenters (`cogpu-daemon.c` and `present.c`)

The requests that create and destroy contexts and those that put resources on the screen: MOCO_PRESENT through the
bridge slots, presents in the command stream, and the R2 records of the broker. All run on the daemon's main thread. The
windows of the desktop and the renderer are seen through what they answer.
-/

namespace MoCoLinux.Cogpu

open Function

/-! ## State -/

/-- `struct r1_presenter`, as far as it says what is shown. It has a target if `parent` is set. -/
structure Presenter where
  parent : Bool
  xid : Nat
  resourceId : Nat
  rung : Nat
  lastPoll : Nat
  deriving DecidableEq, Repr

def Presenter.empty : Presenter := ⟨false, 0, 0, 0, 0⟩

/-- A presenter shows a resource. Resource id zero is no resource, and a presenter without a target has none. -/
def Presenter.Shows (p : Presenter) (resId : Nat) : Prop := p.resourceId = resId ∧ resId ≠ 0

instance (p : Presenter) (resId : Nat) : Decidable (p.Shows resId) := inferInstanceAs (Decidable (_ ∧ _))

structure Binding where
  generation : Nat
  connection : Nat
  buffer : Nat
  xid : Nat
  resourceId : Nat
  deriving DecidableEq, Repr

/-- `struct copresent_record`, as far as the presenter reads it. The flag is `COPRESENT_F_ACQUIRE_WAITED`. -/
structure Record where
  generation : Nat
  connection : Nat
  buffer : Nat
  xid : Nat
  resourceId : Nat
  width : Nat
  height : Nat
  acquireWaited : Bool

def Binding.belongsTo (b : Binding) (r : Record) : Bool :=
  b.generation == r.generation && b.connection == r.connection && b.buffer == r.buffer

/-- What the presenter reads of `struct cogpu_vrend_resource_info`: the size, and whether it is a plain colour texture. -/
structure Info where
  width : Nat
  height : Nat
  colour : Bool

inductive Status where
  | ok
  | badRecord
  | noResource
  | noWindow
  | stale
  | presentFailed
  deriving DecidableEq, Repr

/-- How the search for a window and `r1_create_target` end. A target can be made and abandoned again. -/
inductive TargetAnswer where
  | noWindow
  | wrongSize
  | refused
  | abandoned
  | made
  deriving DecidableEq

inductive Sight where
  | hidden
  | wrongSize
  | visible
  deriving DecidableEq

structure Desk where
  /-- `GetTickCount`. -/
  now : Nat
  /-- `pump_messages` goes on. -/
  pumped : Bool
  /-- The windows of the target are gone, or it has settled at another size. -/
  lost : Bool
  /-- The target is where it should be, or need not be shown. -/
  placed : Bool
  target : TargetAnswer
  sight : Sight
  drawn : Bool

structure Screen where
  gpu : Gpu
  ctxCapset : Nat → Nat
  ctxWanted : Nat → Nat
  /-- The contexts the renderer has, each with its capset. -/
  contexts : Nat → Option Nat
  presenters : Nat → Presenter
  current : Nat
  bindings : Nat → Option Binding
  enabled : Bool
  generation : Nat
  /-- History: the context that presented last to each bridge slot. -/
  presentedBy : Nat → Option Nat
  /-- History: `g_bridge_clock` when the last context of an id was destroyed. -/
  destroyed : Nat → Option Nat

namespace Screen

/-! ## Presenters -/

def maxPresenters : Nat := 8

def maxBindings : Nat := 64

def r1 (s : Screen) : Presenter := s.presenters s.current

def setCurrent (s : Screen) (p : Presenter) : Screen :=
  { s with presenters := update s.presenters s.current p }

def dropTarget (s : Screen) : Screen := s.setCurrent .empty

def findPresenter (s : Screen) (p : Presenter → Bool) : Option Nat :=
  (List.range maxPresenters).find? fun i => p (s.presenters i)

def oldest (s : Screen) : Nat :=
  (List.range maxPresenters).foldl
    (fun pick i => if (s.presenters i).lastPoll < (s.presenters pick).lastPoll then i else pick) 0

def select (s : Screen) (xid : Nat) : Screen :=
  match s.findPresenter fun p => p.parent && p.xid == xid with
  | some i => { s with current := i }
  | none =>
    match s.findPresenter fun p => !p.parent with
    | some i => { s with current := i }
    | none =>
      let s := { s with current := s.oldest }
      if s.r1.parent then s.dropTarget else s

/-- `present_surface_poll`: whether it did not fail, and the state. -/
def surfacePoll (s : Screen) (d : Desk) : Bool × Screen :=
  if u32Sub d.now s.r1.lastPoll < 16 then (true, s)
  else
    let s := s.setCurrent { s.r1 with lastPoll := d.now }
    if d.pumped = false then (false, s)
    else if s.r1.parent = false then (true, s)
    else if d.lost then (true, s.dropTarget)
    else (d.placed, s)

/-- The target for a window, unless there is one: a status if there is none then. -/
def ensureTarget (s : Screen) (xid : Nat) (d : Desk) : Option Status × Screen :=
  if s.r1.parent then (none, s)
  else
    match d.target with
    | .noWindow => (some .noWindow, s)
    | .wrongSize => (some .stale, s)
    | .refused => (some .presentFailed, s)
    | .abandoned => (some .presentFailed, s.dropTarget)
    | .made => (none, s.setCurrent { s.r1 with parent := true, xid := xid, rung := 2 })

def leaveRung (s : Screen) : Screen := if s.r1.parent = true ∧ s.r1.rung ≠ 2 then s.dropTarget else s

def drawOn (resId : Nat) (d : Desk) : Option Status × Screen → Status × Screen
  | (some status, s) => (status, s)
  | (none, s) =>
    match d.sight with
    | .hidden => (.ok, s)
    | .wrongSize => (.stale, s)
    | .visible => (if d.drawn then .ok else .presentFailed, s.setCurrent { s.r1 with resourceId := resId })

def showPolled (xid resId : Nat) (d : Desk) : Bool × Screen → Status × Screen
  | (false, s) => (.presentFailed, s)
  | (true, s) => drawOn resId d (s.ensureTarget xid d)

/-- What `cogpu_present_r2_present` and `cogpu_present_stream` do once they know the resource and the window. -/
def showOn (s : Screen) (xid resId : Nat) (d : Desk) : Status × Screen :=
  showPolled xid resId d ((s.select xid).leaveRung.surfacePoll d)

def poll (s : Screen) (d : Desk) : Screen := if s.enabled then (s.surfacePoll d).2 else s

/-- `cogpu_vrend_resource_info`, with what the renderer would say of a resource it has. -/
def resourceInfo (s : Screen) (resId : Nat) (info : Option Info) : Option Info :=
  (s.gpu.renderer.live resId).bind fun _ => info

def stream (s : Screen) (resId xid width height : Nat) (info : Option Info) (d : Desk) : Screen :=
  if s.enabled = false ∨ xid = 0 ∨ width = 0 ∨ height = 0 then s
  else
    match s.resourceInfo resId info with
    | none => s
    | some info => if info.colour then (s.showOn xid resId d).2 else s

/-- `cogpu_present_r1_resource_unref`. -/
def r1Unref (s : Screen) (resId : Nat) : Screen := if s.r1.resourceId ≠ resId then s else s.dropTarget

/-! ## Bindings -/

def findBinding (s : Screen) (r : Record) : Option Nat :=
  (List.range maxBindings).find? fun k => (s.bindings k).any fun b => b.belongsTo r

def allocBinding (s : Screen) : Option Nat := (List.range maxBindings).find? fun k => (s.bindings k).isNone

def rebind (s : Screen) (k : Nat) : Screen :=
  match s.bindings k with
  | some b => if s.r1.rung = 2 ∧ s.r1.resourceId = b.resourceId then s.dropTarget else s
  | none => s

/-- A BIND record: `cogpu_present_r2_bind` with the renderer's description of the resource. -/
def bind (s : Screen) (r : Record) (info : Option Info) : Status × Screen :=
  match s.resourceInfo r.resourceId info with
  | none => (.noResource, s)
  | some info =>
    if s.enabled = false ∨ r.xid = 0 ∨ r.width = 0 ∨ r.height = 0 ∨ r.width ≠ info.width ∨ r.height ≠ info.height ∨
        info.colour = false then (.badRecord, s)
    else if s.generation ≠ 0 ∧ s.generation ≠ r.generation then (.stale, s)
    else
      match (s.findBinding r).or s.allocBinding with
      | none => (.presentFailed, s)
      | some k =>
        let s := s.rebind k
        (.ok, { s with
          bindings := update s.bindings k
            (some ⟨r.generation, r.connection, r.buffer, r.xid, r.resourceId⟩),
          generation := r.generation })

def bindingOf (s : Screen) (r : Record) : Option Binding := (s.findBinding r).bind s.bindings

def r2Present (s : Screen) (r : Record) (d : Desk) : Status × Screen :=
  if s.enabled = false ∨ r.acquireWaited = false then (.badRecord, s)
  else
    match s.bindingOf r with
    | none => (.stale, s)
    | some b => if b.resourceId ≠ r.resourceId ∨ b.xid ≠ r.xid then (.stale, s) else s.showOn b.xid b.resourceId d

def dropShowing (s : Screen) (resId : Nat) : Screen :=
  { s with presenters := fun j =>
      let p := s.presenters j
      if p.parent = true ∧ p.rung = 2 ∧ p.resourceId = resId then .empty else p }

def unbind (s : Screen) (r : Record) : Status × Screen :=
  match s.findBinding r with
  | none => (.stale, s)
  | some k =>
    match s.bindings k with
    | none => (.stale, s)
    | some b =>
      let s := s.dropShowing b.resourceId
      (.ok, { s with bindings := update s.bindings k none })

def names (s : Screen) (resId k : Nat) : Bool := (s.bindings k).any fun b => b.resourceId == resId

/-- `cogpu_present_r2_resource_unref`. -/
def r2Unref (s : Screen) (resId : Nat) : Screen :=
  let cleared := { s with bindings := fun k => if s.names resId k then none else s.bindings k }
  if (List.range maxBindings).any (s.names resId) then
    if s.r1.rung = 2 ∧ s.r1.resourceId = resId then cleared.dropTarget else cleared
  else s

def reset (s : Screen) (generation : Nat) : Screen :=
  let s := if s.r1.rung = 2 then s.dropTarget else s
  { s with bindings := fun _ => none, generation := generation }

/-! ## Requests -/

def maxCtx : Nat := 4096

/-- The capset in the low byte of `ctx_init`, where zero stands for VIRGL2. -/
def capsetOf (ctxInit : Nat) : Nat := if ctxInit % 256 = 0 then 2 else ctxInit % 256

/-- `cogpu_vrend_ctx_destroy`. -/
def endContext (s : Screen) (ctxId : Nat) : Screen :=
  { s with
    contexts := update s.contexts ctxId none
    destroyed := if (s.contexts ctxId).isSome then update s.destroyed ctxId (some s.gpu.bridgeClock)
      else s.destroyed }

def record (table : Nat → Nat) (ctxId value : Nat) : Nat → Nat :=
  if ctxId < maxCtx then update table ctxId value else table

/-- CTX_CREATE, where `ok` says whether the renderer creates the context. -/
def ctxCreate (s : Screen) (ctxId ctxInit : Nat) (ok : Bool) : Screen :=
  let s := { s with ctxWanted := record s.ctxWanted ctxId (capsetOf ctxInit) }.endContext ctxId
  if ok then
    { s with
      contexts := update s.contexts ctxId (some (capsetOf ctxInit))
      ctxCapset := record s.ctxCapset ctxId (s.ctxWanted ctxId) }
  else s

def releaseSlot (s : Screen) (ctxId i : Nat) : Screen :=
  if (s.gpu.bridge i).xid = 0 ∨ (s.gpu.bridge i).ctxId ≠ ctxId then s
  else
    let s := (s.r1Unref (Gpu.bridgeRes i)).r2Unref (Gpu.bridgeRes i)
    { s with gpu := (s.gpu.dropSlot i).setSlot i ⟨0, 0, 0, 0, 0⟩ }

def releaseCtx (s : Screen) (ctxId : Nat) : Screen :=
  (List.range Gpu.bridgeSlots).foldl (fun s i => s.releaseSlot ctxId i) s

def ctxDestroy (s : Screen) (ctxId : Nat) : Screen :=
  let s := (s.releaseCtx ctxId).endContext ctxId
  { s with ctxCapset := record s.ctxCapset ctxId 0 }

def unref (s : Screen) (resId : Nat) : Screen :=
  let s := (s.r1Unref resId).r2Unref resId
  { s with gpu := (s.gpu.resourceUnref resId).2 }

/-- MOCO_PRESENT. A frame that comes as far as the bridge moves its clock. -/
def present (s : Screen) (resId : Nat) (f : Gpu.Frame) (bridgeOk uploadOk : Bool) (info : Option Info) (d : Desk) : Screen :=
  let slot := (s.gpu.pickSlot f.xid).1
  let result := s.gpu.present resId f bridgeOk uploadOk
  let after := { s with
    gpu := result.2
    presentedBy := if result.2.bridgeClock = s.gpu.bridgeClock then s.presentedBy
      else update s.presentedBy slot (some f.ctxId) }
  if result.1 = .okNodata then after.stream (Gpu.bridgeRes slot) f.xid f.width f.height info d else after

/-! ## Runs -/

inductive Event where
  | create (resId : Nat) (ok : Bool)
  | mapBlob (resId offset : Nat) (a : MapAnswers)
  | unmapBlob (resId : Nat) (unwindowOk unmapOk : Bool)
  | present (resId : Nat) (f : Gpu.Frame) (bridgeOk uploadOk : Bool) (info : Option Info) (d : Desk)
  | unref (resId : Nat)
  | ctxCreate (ctxId ctxInit : Nat) (ok : Bool)
  | ctxDestroy (ctxId : Nat)
  | stream (resId xid width height : Nat) (info : Option Info) (d : Desk)
  | bind (r : Record) (info : Option Info)
  | r2Present (r : Record) (d : Desk)
  | unbind (r : Record)
  | reset (generation : Nat)
  | poll (d : Desk)

def step (s : Screen) : Event → Screen
  | .create resId ok => { s with gpu := (s.gpu.createBlob ok resId).2 }
  | .mapBlob resId offset a => { s with gpu := (s.gpu.mapBlob resId offset a).2 }
  | .unmapBlob resId unwindowOk unmapOk => { s with gpu := (s.gpu.unmapBlob resId unwindowOk unmapOk).2 }
  | .present resId f bridgeOk uploadOk info d => s.present resId f bridgeOk uploadOk info d
  | .unref resId => s.unref resId
  | .ctxCreate ctxId ctxInit ok => s.ctxCreate ctxId ctxInit ok
  | .ctxDestroy ctxId => s.ctxDestroy ctxId
  | .stream resId xid width height info d => s.stream resId xid width height info d
  | .bind r info => (s.bind r info).2
  | .r2Present r d => (s.r2Present r d).2
  | .unbind r => (s.unbind r).2
  | .reset generation => s.reset generation
  | .poll d => s.poll d

def initial (base top : Nat) (enabled : Bool) : Screen where
  gpu := .initial base top
  ctxCapset _ := 0
  ctxWanted _ := 0
  contexts _ := none
  presenters _ := .empty
  current := 0
  bindings _ := none
  enabled := enabled
  generation := 0
  presentedBy _ := none
  destroyed _ := none

def Reachable (ok : Screen → Event → Prop) : Screen → Prop :=
  Runs.Reach (fun s => ∃ base top enabled, s = initial base top enabled) fun s e s' => ok s e ∧ s' = s.step e

/-! ## What is promised -/

/-- The capset of an id is that of the renderer's context, and zero if there is none. -/
def CapsetsRecorded (s : Screen) : Prop :=
  ∀ ctxId < maxCtx, (s.ctxCapset ctxId ≠ 0 ↔ (s.contexts ctxId).isSome) ∧
    ∀ capset, s.contexts ctxId = some capset → s.ctxCapset ctxId = capset

/-- No bridge slot in use belongs to a context that was destroyed after the slot was last presented to. -/
def BridgesOwned (s : Screen) : Prop :=
  ∀ i < Gpu.bridgeSlots, (s.gpu.bridge i).xid ≠ 0 → ∀ time, s.destroyed (s.gpu.bridge i).ctxId = some time →
    time < (s.gpu.bridge i).used

structure Gone (s : Screen) (resId : Nat) : Prop where
  shown : ∀ j < maxPresenters, ¬ (s.presenters j).Shows resId
  bound : ∀ k < maxBindings, s.names resId k = false

def Released (s : Screen) : Event → Prop
  | .unref resId => s.Gone resId
  | .ctxDestroy ctxId => ∀ i < Gpu.bridgeSlots, s.presentedBy i = some ctxId →
      (∀ j < maxPresenters, ¬ (s.presenters j).Shows (Gpu.bridgeRes i)) ∧
        s.gpu.renderer.live (Gpu.bridgeRes i) = none
  | _ => True

end Screen

end MoCoLinux.Cogpu
