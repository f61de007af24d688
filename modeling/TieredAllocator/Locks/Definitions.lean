import TieredAllocator.Lib.Expansion
import TieredAllocator.Lib.Mutexes
import TieredAllocator.Allocator.Definitions

/-!
# Locks — definitions

The mutexes of the page heap, the central lists and the transfer caches.  Each action of `Allocator`
that runs under a mutex is expanded into what its thread does from one lock or unlock to the next
(`Piece`), so that the steps of other threads may come in between.  A central list calls the page
heap while it is locked, and its functions are cut there: `startAllocate` and `resumeAllocate` stand
before and behind the call of `allocate_span`, `startDeallocate` before that of `return_span`.
-/

namespace TieredAllocator
open Lib

inductive Mutex where
  /-- `PageHeap::mu` -/
  | heap
  /-- `CentralFreeList::mu` -/
  | list (sc : Nat)
  /-- `TransferCache::mu` -/
  | cache (sc : Nat)
deriving DecidableEq

/-! ### The functions of the central lists, cut at their calls -/

/-- What `allocate` has come to before it would call the page heap. -/
inductive Chosen where
  | result (ptr : Nat)
  | fetch (pages size : Nat)

namespace Backend

/-- `allocate` from the test of `current_span` to the call of `allocate_span`. -/
def chosen (b : Backend) (c : Nat) : Option (Chosen × Backend) :=
  let l := b.freeList c
  match l.currentSpan with
  | some s => do
      let (result, b) ← b.takeFrom c s
      some (.result result, b)
  | none =>
      if l.size = 0 ∨ l.pages = 0 then some (.result 0, b) else some (.fetch l.pages l.size, b)

/-- `allocate` up to the call of `allocate_span`, or to its end if there is none. -/
def startAllocate (b : Backend) (c : Nat) : Option (Chosen × Backend) := do
  let b ← if ← b.currentAvailable c then some b
    else do
      let s ← b.findAvailableSpan c
      some (b.setList c { b.freeList c with currentSpan := s })
  b.chosen c

/-- `fetch_from_page_heap` behind the call, which has returned `s`. -/
def attachSpan (b : Backend) (c : Nat) (s : SpanId) : Option Backend := do
  let l := b.freeList c
  let h := b.pageHeap
  let x ← h.spans s
  let h := h.set s { x with next := l.spanList, prev := none }
  let h ← match l.spanList with
    | some t => do
        let y ← h.spans t
        some (h.set t { y with prev := some s })
    | none => some h
  let x ← h.spans s
  let count := x.numPages * pageSize / l.size % 2 ^ 32
  -- the assertion on 16-bit indexes
  if invalidIndex < count then none
  else
    let h := h.set s { x with
      totalObjects := count
      freelistHead := invalidIndex
      numFreeObjects := 0
      nextUninitialized := 0 }
    some ({ b with pageHeap := h }.setList c { l with spanList := some s, currentSpan := some s })

/-- `allocate` behind the call of `allocate_span`. -/
def resumeAllocate (b : Backend) (c : Nat) : (span : Option SpanId) → Option (Nat × Backend)
  | none => some (0, b)
  | some s => do
      let b ← b.attachSpan c s
      b.takeFrom c s

/-- `release_to_page_heap` up to the call of `return_span`. -/
def detachSpan (b : Backend) (c : Nat) (s : SpanId) : Option Backend := do
  let l := b.freeList c
  let x ← b.pageHeap.spans s
  let current := if l.currentSpan = some s then none else l.currentSpan
  let (spans, head) ← unlink b.pageHeap.spans l.spanList s
  let y ← spans s
  let h := { b.pageHeap with spans := spans }.set s { y with
    freelistHead := invalidIndex
    numFreeObjects := 0
    totalObjects := 0
    nextUninitialized := 0 }
  some ({ b with pageHeap := h }.setList c
    { l with
      spanList := head
      currentSpan := current
      numFree := sub32 l.numFree x.numFreeObjects })

/-- The locked part of `deallocate` up to the call of `return_span`, and whether it is made. -/
def startDeallocate (b : Backend) (c : Nat) (s : SpanId) (ptr : Nat) : Option (Bool × Backend) := do
  let l := b.freeList c
  -- division by the object size
  if l.size = 0 then none
  else
    let x ← b.pageHeap.spans s
    let (m, x) := give b.mem l.size x ptr
    let b := ({ b with mem := m }.setSpan s x).setList c { l with numFree := add32 l.numFree 1 }
    if x.numFreeObjects = x.totalObjects then do
      let b ← b.detachSpan c s
      some (true, b)
    else some (false, b)

end Backend

/-! ### Pieces and programs -/

inductive Piece where
  | lock (m : Mutex)
  | unlock (m : Mutex)
  /-- an action that calls nothing -/
  | whole (a : Action)
  | startAllocate (sc : Nat)
  | resumeAllocate (sc : Nat) (span : Option SpanId)
  | startDeallocate (sc : Nat) (s : SpanId) (ptr : Nat)
  | allocateSpan (numPages size : Nat)
  | returnSpan (s : SpanId)

abbrev PieceAnswer : Piece → Type
  | .lock _ => Unit
  | .unlock _ => Unit
  | .whole a => Answer a
  | .startAllocate _ => Chosen
  | .resumeAllocate _ _ => Nat
  | .startDeallocate _ _ _ => Bool
  | .allocateSpan _ _ => Option SpanId
  | .returnSpan _ => Unit

abbrev LockedProgram := Prog Piece PieceAnswer

namespace LockedProgram

def piece (a : Piece) : LockedProgram (PieceAnswer a) := Prog.perform a

/-- Under a `std::lock_guard`. -/
def guarded {β : Type} (m : Mutex) (p : LockedProgram β) : LockedProgram β := do
  let _ ← piece (.lock m)
  let v ← p
  let _ ← piece (.unlock m)
  pure v

/-- `PageHeap::allocate_span`. -/
def allocateSpan (numPages size : Nat) : LockedProgram (Option SpanId) :=
  if numPages = 0 ∨ maxPages < numPages then pure none
  else guarded .heap (piece (.allocateSpan numPages size))

/-- `PageHeap::return_span`. -/
def returnSpan (s : SpanId) : LockedProgram Unit := guarded .heap (piece (.returnSpan s))

/-- `CentralFreeList::allocate`. -/
def centralAllocate (sc : Nat) : LockedProgram Nat := guarded (.list sc) do
  match (← piece (.startAllocate sc) : Chosen) with
  | .result ptr => pure ptr
  | .fetch pages size =>
      let span ← allocateSpan pages size
      piece (.resumeAllocate sc span)

/-- `CentralFreeList::deallocate`, the locked part. -/
def centralDeallocate (sc : Nat) (s : SpanId) (ptr : Nat) : LockedProgram Unit :=
  guarded (.list sc) do
    if ← piece (.startDeallocate sc s ptr) then returnSpan s else pure ()

/-- An action of `Allocator`, from its first lock to its last unlock. -/
def expand : (a : Action) → LockedProgram (Answer a)
  | .slabPop sc => piece (.whole (.slabPop sc))
  | .slabPush sc ptr => piece (.whole (.slabPush sc ptr))
  | .removeRange sc n => guarded (.cache sc) (piece (.whole (.removeRange sc n)))
  | .insertRange sc batch => guarded (.cache sc) (piece (.whole (.insertRange sc batch)))
  | .centralAllocate sc => centralAllocate sc
  | .spanFor ptr => guarded .heap (piece (.whole (.spanFor ptr)))
  | .spanSize s => piece (.whole (.spanSize s))
  | .centralDeallocate sc s ptr => centralDeallocate sc s ptr

end LockedProgram

/-! ### The machine -/

structure LockedWorld where
  world : World
  locked : Mutex → Bool

namespace LockedWorld

def setBackend (w : LockedWorld) (b : Backend) : LockedWorld :=
  { w with world.allocator.backend := b }

/-- A mutex that is taken cannot be locked, and one that is not taken not be unlocked. -/
def perform (e : Env) (w : LockedWorld) : (a : Piece) → Option (PieceAnswer a × LockedWorld)
  | .lock m =>
      if w.locked m then none else some ((), { w with locked := Function.update w.locked m true })
  | .unlock m =>
      if w.locked m then some ((), { w with locked := Function.update w.locked m false }) else none
  | .whole a => (w.world.perform e a).map fun r => (r.1, { w with world := r.2 })
  | .startAllocate sc =>
      (w.world.allocator.backend.startAllocate sc).map fun r => (r.1, w.setBackend r.2)
  | .resumeAllocate sc span =>
      (w.world.allocator.backend.resumeAllocate sc span).map fun r => (r.1, w.setBackend r.2)
  | .startDeallocate sc s ptr =>
      (w.world.allocator.backend.startDeallocate sc s ptr).map fun r => (r.1, w.setBackend r.2)
  | .allocateSpan numPages size =>
      let b := w.world.allocator.backend
      (b.pageHeap.allocateSpan e.kernel numPages size).map fun r =>
        (r.1, w.setBackend { b with pageHeap := r.2 })
  | .returnSpan s =>
      let b := w.world.allocator.backend
      (b.pageHeap.returnSpan (some s)).map fun h => ((), w.setBackend { b with pageHeap := h })

/-- No mutex is taken. -/
def free (w : World) : LockedWorld := ⟨w, fun _ => false⟩

end LockedWorld

/-- The mutexes that the thread holds, the last one locked first. -/
def trackLocks (held : List Mutex) : (a : Piece) → PieceAnswer a → List Mutex
  | .lock m, _ => m :: held
  | .unlock m, _ => held.erase m
  | _, _ => held

/-- The allocator with its mutexes. -/
def lockedMachine :
    Machine Call Result Piece PieceAnswer Env ClientWrite LockedWorld (List Mutex) where
  program c := c.program.expand LockedProgram.expand
  perform := LockedWorld.perform
  begin w c := (w.world.begin c).map fun r => ([], { w with world := r.2 })
  finish w c v := { w with world := w.world.finish c v }
  client w x := (w.world.client x).map fun u => { w with world := u }
  track := trackLocks

abbrev LockedProcess (ι : Type) := Config ι Call Result Piece PieceAnswer LockedWorld (List Mutex)

/-- A new process, all threads idle and all mutexes free. -/
def LockedProcess.init (ι : Type) (mem : Memory) (foreign : Nat → Bool) (slabPage slabCount : Nat) :
    LockedProcess ι :=
  Machine.rest (.free (World.init mem foreign slabPage slabCount))

abbrev LockedProcess.system (ι : Type) [DecidableEq ι] :
    System (LockedProcess ι) (Step ι Call Env ClientWrite) :=
  lockedMachine.system ι

end TieredAllocator
