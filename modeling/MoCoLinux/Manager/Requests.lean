import MoCoLinux.Kload.Ram
import MoCoLinux.Kload.Window
import MoCoLinux.Lib.Runs
import MoCoLinux.Lib.Slots

/-!
# Requests on manager handles (`kernel/manager.c`, `os/winnt/kernel/lowlevel/user.c`)

The requests that load a guest, map it and publish host memory to it, from any number of handles; a request is
one step. The dispatcher refuses a request on a handle that is not open, so `opened` is never `NULL`. A handle
that is closed and opened again starts with nothing recorded, so a handle is its number.
-/

namespace MoCoLinux

open Arch (Mem)
open Kload (windowFirst windowSlot)

/-- An MDL, which one it is and the frames of the pages it locks. -/
structure Mdl where
  id : Nat
  pfns : List Nat
  deriving DecidableEq, Repr

def Mdl.pfn (mdl : Mdl) (i : Nat) : Nat := mdl.pfns.getD i 0

/-- `co_manager_window_t`, with the handle on whose list it is. -/
structure WindowNode where
  opened : Nat
  handle : Mdl
  pages : Nat
  pseudoPa : Nat
  window : Nat
  placed : Bool
  deriving DecidableEq, Repr

structure Manager where
  l : Loader
  m : Mem
  /-- The `window` lists of all handles merged, newest first. -/
  windows : List WindowNode
  /-- The handles with `kmap_reserved` set. -/
  reserved : List Nat
  locked : List Mdl
  /-- History: how many windows were mapped. -/
  mapped : Nat
  /-- History: the window last mapped at a p2m slot, until it is unmapped or the p2m is released. -/
  owner : Nat → Option Nat

structure LockHost where
  mdl : Option Nat
  pfn : Nat → Nat
  /-- Whether `co_os_malloc` has memory for the array of frames, and for the node. -/
  pfnsOk : Bool
  nodeOk : Bool

/-- `co_os_user_lock_pages`. A failure leaves nothing locked. -/
def userLockPages (host : LockHost) (va size : Nat) : Except Rc Mdl :=
  if size = 0 ∨ size &&& (Arch.pageSize - 1) ≠ 0 then .error .invalidParameter
  else if va = 0 ∨ va &&& (Arch.pageSize - 1) ≠ 0 then .error .invalidParameter
  else
    match host.mdl with
    | none => .error .outOfMemory
    | some id =>
      if host.pfnsOk then .ok ⟨id, (List.range (size >>> 12)).map host.pfn⟩ else .error .outOfMemory

namespace Manager

def k (s : Manager) : Kload := s.l.k

def withK (s : Manager) (k : Kload) : Manager := { s with l := { s.l with k := k } }

/-! ## Windows -/

def lock (s : Manager) (mdl : Mdl) : Manager := { s with locked := mdl :: s.locked }

/-- `co_os_user_unlock_pages`. -/
def unlock (s : Manager) (mdl : Mdl) : Manager := { s with locked := s.locked.erase mdl }

def unmap (s : Manager) (node : WindowNode) : Manager :=
  match s.k.windowUnmap node.pseudoPa node.pages with
  | (k, touched) => { s.withK k with owner := fun j => if j ∈ touched then none else s.owner j }

def windowTrack (s : Manager) (nodeOk : Bool) (node : WindowNode) : Manager :=
  if nodeOk then { s with windows := node :: s.windows } else (s.unmap node).unlock node.handle

def published (s : Manager) (k : Kload) (node : WindowNode) : Manager :=
  { s.withK k with
    mapped := s.mapped + 1
    owner := Slots.fill (windowSlot (windowFirst node.pseudoPa)) (fun _ => some node.window) s.owner node.pages }

/-- What KWINDOW and KWINDOW_AT share after the pages are locked: `call` is the map call for the window. -/
def publish (s : Manager) (nodeOk : Bool) (call : Kload.WindowCall) (node : WindowNode) : Rc × Nat × Manager :=
  if call.rc = .ok then (.ok, node.pseudoPa, (s.published call.k node).windowTrack nodeOk node)
  else (call.rc, 0, (s.withK call.k).unlock node.handle)

def kwindow (s : Manager) (opened : Nat) (host : LockHost) (va bytes : Nat) : Rc × Nat × Manager :=
  match userLockPages host va (ulong bytes) with
  | .error rc => (rc, 0, s)
  | .ok mdl =>
    let call := s.k.windowMap (some mdl.pfn) mdl.pfns.length
    (s.lock mdl).publish host.nodeOk call ⟨opened, mdl, mdl.pfns.length, call.pseudo, s.mapped, false⟩

/-- KWINDOW_AT: `params->rc` and the state; the address is the caller's. -/
def kwindowAt (s : Manager) (opened : Nat) (host : LockHost) (va bytes pseudoPa : Nat) : Rc × Nat × Manager :=
  match userLockPages host va (ulong bytes) with
  | .error rc => (rc, pseudoPa, s)
  | .ok mdl =>
    match (s.lock mdl).publish host.nodeOk (s.k.windowMapAt (some mdl.pfn) mdl.pfns.length pseudoPa)
      ⟨opened, mdl, mdl.pfns.length, pseudoPa, s.mapped, true⟩ with
    | (rc, _, s) => (rc, pseudoPa, s)

/-- The windows a release of this address and length by this handle finds. -/
def Names (opened pseudoPa pages : Nat) (node : WindowNode) : Prop :=
  node.opened = opened ∧ node.pseudoPa = pseudoPa ∧ node.pages = pages

instance (opened pseudoPa pages : Nat) : DecidablePred (Names opened pseudoPa pages) :=
  fun _ => inferInstanceAs (Decidable (_ ∧ _))

def windowRelease (s : Manager) (opened pseudoPa pages : Nat) : Rc × Manager :=
  match s.windows.find? fun node => decide (Names opened pseudoPa pages node) with
  | none => (.notFound, s)
  | some node =>
    (.ok, ({ s with windows := s.windows.eraseP fun node => decide (Names opened pseudoPa pages node) }.unmap
      node).unlock node.handle)

def kunwindow (s : Manager) (opened pseudoPa bytes : Nat) : Rc × Manager :=
  s.windowRelease opened pseudoPa (ulong (bytes >>> 12))

def releaseList (s : Manager) : List WindowNode → Manager
  | [] => s
  | node :: nodes => ((s.unmap node).unlock node.handle).releaseList nodes

def windowReleaseAll (s : Manager) (opened : Nat) : Manager :=
  { s with windows := s.windows.filter fun node => node.opened ≠ opened }.releaseList
    (s.windows.filter fun node => node.opened = opened)

/-! ## Mappings of guest RAM -/

def tornDown (s : Manager) (k : Kload) : Manager :=
  { s.withK k with owner := if k.p2m.isNone then fun _ => none else s.owner }

/-- KMAP and KMAP_RANGE, as far as the reservation goes; `slicesOk` tells whether the slices asked for could be
mapped. -/
def kmap (s : Manager) (opened : Nat) (slicesOk : Bool) : Manager :=
  if s.k.userRamVa ≠ 0 ∨ opened ∈ s.reserved then s
  else
    match s.k.userMapTryGet with
    | (false, k) => s.withK k
    | (true, k) =>
      if slicesOk then { s.withK k with reserved := opened :: s.reserved } else s.tornDown k.userMapPut

/-- `co_manager_kmap_release`: KUNMAP, or the close of the handle. -/
def kmapRelease (s : Manager) (opened : Nat) : Manager :=
  let s := s.windowReleaseAll opened
  if opened ∈ s.reserved then
    { s.tornDown s.k.userMapPut with reserved := s.reserved.filter fun other => other ≠ opened }
  else s

/-! ## Requests -/

inductive Request where
  | kloadBegin (host : Host) (minVa maxVa ramBytes ramUserVa ramUserBytes : Nat)
  | kloadChunk (host : Host) (c : Loader.Chunk)
  | kram (host : Host) (ramBytes textVa endVa : Nat)
  /-- KLOAD_END that finds no run under way. -/
  | kloadEnd
  | kwindow (host : LockHost) (va bytes : Nat)
  | kwindowAt (host : LockHost) (va bytes pseudoPa : Nat)
  | kunwindow (pseudoPa bytes : Nat)
  | kmap (slicesOk : Bool)
  | kunmap

/-- The state after a request of this handle, `none` if a loop of the loader does not end. -/
def handle (s : Manager) (opened : Nat) : Request → Option Manager
  | .kloadBegin host minVa maxVa ramBytes ramUserVa ramUserBytes => do
      -- a mapping dropped during its wait is KLOAD_END, KUNMAP and then KLOAD_BEGIN
      let (_, l, m) ← Loader.begin host 0 minVa maxVa ramBytes ramUserVa ramUserBytes s.l s.m
      return { s.tornDown s.k.free with l := l, m := m }
  | .kloadChunk host c =>
    match Loader.chunk host c s.l s.m with
    | (_, l, m) => some { s with l := l, m := m }
  | .kram host ramBytes textVa endVa => do
      let (_, l, m) ← Loader.buildRam host ramBytes textVa endVa s.l s.m
      return { s with l := l, m := m }
  | .kloadEnd => some (s.tornDown s.k.free)
  | .kwindow host va bytes => some (s.kwindow opened host va bytes).2.2
  | .kwindowAt host va bytes pseudoPa => some (s.kwindowAt opened host va bytes pseudoPa).2.2
  | .kunwindow pseudoPa bytes => some (s.kunwindow opened pseudoPa bytes).2
  | .kmap slicesOk => some (s.kmap opened slicesOk)
  | .kunmap => some (s.kmapRelease opened)

def initial (m : Mem) : Manager := ⟨⟨Kload.initial, 0, false⟩, m, [], [], [], 0, fun _ => none⟩

def Reachable (ok : Manager → Nat → Request → Prop) : Manager → Prop :=
  Runs.Reach (fun s => ∃ m, s = initial m)
    fun s (request : Nat × Request) s' => ok s request.1 request.2 ∧ s.handle request.1 request.2 = some s'

def Words (_ : Manager) (_ : Nat) : Request → Prop
  | .kloadBegin _ _ maxVa _ _ _ => maxVa < 2 ^ 64
  | _ => True

/-! ## What a window request promises -/

structure Named (k : Kload) (node : WindowNode) : Prop where
  aligned : node.pseudoPa % 4096 = 0
  inside : node.pseudoPa / 4096 + node.pages ≤ k.p2mCapacity
  frames : ∃ p2m, k.p2m = some p2m ∧ ∀ i < node.pages, p2m (node.pseudoPa / 4096 + i) = node.handle.pfn i

def Undone (node : WindowNode) (locked : List Mdl) (s : Manager) : Prop :=
  s.locked = locked ∧ ∀ p2m, s.k.p2m = some p2m → ∀ i < node.pages, p2m (node.pseudoPa / 4096 + i) = 0

/-- From `s` to `s'` this handle got a window at this address, for locked pages, and a record with which KUNWINDOW or
the close of the handle will undo it. -/
def Held (s s' : Manager) (opened pseudoPa : Nat) : Prop :=
  ∃ node, s'.windows = node :: s.windows ∧ node.opened = opened ∧ node.pseudoPa = pseudoPa ∧
    s'.locked = node.handle :: s.locked ∧ node.pages = node.handle.pfns.length ∧ Named s'.k node ∧
    ((s'.windowRelease opened pseudoPa node.pages).1 = .ok ∧
      Undone node s.locked (s'.windowRelease opened pseudoPa node.pages).2) ∧
    Undone node (s.windowReleaseAll opened).locked (s'.windowReleaseAll opened)

def SetsNothing (k k' : Kload) : Prop :=
  ∀ p2m', k'.p2m = some p2m' → ∃ p2m, k.p2m = some p2m ∧ ∀ j, p2m' j ≠ 0 → p2m' j = p2m j

/-- A request that reports OK when there is a window and not otherwise, and else leaves nothing behind. -/
def Honest (s : Manager) (opened : Nat) (r : Rc × Nat × Manager) : Prop :=
  (r.1 = .ok ↔ Held s r.2.2 opened r.2.1) ∧ (r.1 ≠ .ok → SetsNothing s.k r.2.2.k ∧ r.2.2.locked = s.locked)

end Manager

end MoCoLinux
