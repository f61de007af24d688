import TieredAllocator.Lib.Programs
import TieredAllocator.Caches.Stacks
import TieredAllocator.CentralFreeList.Definitions

/-!
# Allocator — definitions

`allocator.hpp`.  The functions of `Allocator` and the batch functions of `CentralFreeList` are
programs over the actions that are atomic: a slab operation, a call under the mutex of a transfer
cache, of a central free list or of the page heap, and the read of `span->size`.  On which CPU a
slab operation runs, and what the kernel answers, is chosen at each action (`Env`).

`machine` is the allocator in use: threads that call `allocate` and `deallocate`, the latter on
live blocks, and clients that write into their blocks.  `World.live` holds the blocks of the
clients, and the ghost of a call (`Held`) the objects the call has got and not yet passed on.
-/

namespace TieredAllocator
open Lib

/-! ### The state and the atomic actions -/

structure Allocator where
  backend : Backend
  transferCaches : Nat → TransferCache
  /-- the address of the first slab -/
  perCpuCaches : Nat
  slabCount : Nat

/-- What an action meets: the CPU it runs on, and the answers of the kernel. -/
structure Env where
  cpu : Nat
  kernel : Kernel

inductive Action where
  | slabPop (sc : Nat)
  | slabPush (sc ptr : Nat)
  | removeRange (sc n : Nat)
  | insertRange (sc : Nat) (batch : List Nat)
  /-- `CentralFreeList::allocate` -/
  | centralAllocate (sc : Nat)
  | spanFor (ptr : Nat)
  /-- the read of `span->size` -/
  | spanSize (s : SpanId)
  /-- the locked part of `CentralFreeList::deallocate` -/
  | centralDeallocate (sc : Nat) (s : SpanId) (ptr : Nat)

abbrev Answer : Action → Type
  | .slabPop _ => Nat
  | .slabPush _ _ => Bool
  | .removeRange _ _ => List Nat
  | .insertRange _ _ => Nat
  | .centralAllocate _ => Nat
  | .spanFor _ => Option SpanId
  | .spanSize _ => Nat
  | .centralDeallocate _ _ _ => Unit

abbrev Program := Prog Action Answer

namespace Allocator

def setMem (a : Allocator) (m : Memory) : Allocator :=
  { a with backend := { a.backend with mem := m } }

def setCache (a : Allocator) (sc : Nat) (tc : TransferCache) : Allocator :=
  { a with transferCaches := Function.update a.transferCaches sc tc }

def perform (e : Env) (a : Allocator) : (x : Action) → Option (Answer x × Allocator)
  | .slabPop sc =>
      let r := Slabs.slabPop a.backend.mem a.perCpuCaches a.slabCount e.cpu sc
      some (r.1, a.setMem r.2)
  | .slabPush sc ptr =>
      let r := Slabs.slabPush a.backend.mem a.perCpuCaches a.slabCount e.cpu sc ptr
      some (r.1, a.setMem r.2)
  | .removeRange sc n =>
      let r := (a.transferCaches sc).removeRange n
      some (r.1, a.setCache sc r.2)
  | .insertRange sc batch =>
      let r := (a.transferCaches sc).insertRange batch
      some (r.1, a.setCache sc r.2)
  | .centralAllocate sc =>
      (a.backend.allocate e.kernel sc).map fun r => (r.1, { a with backend := r.2 })
  | .spanFor ptr => some (a.backend.pageHeap.spanFor ptr, a)
  | .spanSize s => (a.backend.pageHeap.spans s).map fun x => (x.size, a)
  | .centralDeallocate sc s ptr =>
      (a.backend.deallocateLocked sc s ptr).map fun b => ((), { a with backend := b })

/-- `~Allocator`: the members are destroyed in the reverse of their order, `free_list` before
`page_heap`; the caches hold nothing that has a destructor. -/
def destroy (a : Allocator) : Option Allocator := do
  let b ← a.backend.destroyFreeLists numSizeClasses
  let h ← b.pageHeap.destroy
  some { a with backend := { b with pageHeap := h } }

end Allocator

/-! ### The programs -/

namespace Program

def slabPop (sc : Nat) : Program Nat := Prog.perform (Action.slabPop sc)

def slabPush (sc ptr : Nat) : Program Bool := Prog.perform (Action.slabPush sc ptr)

def removeRange (sc n : Nat) : Program (List Nat) := Prog.perform (Action.removeRange sc n)

def insertRange (sc : Nat) (batch : List Nat) : Program Nat :=
  Prog.perform (Action.insertRange sc batch)

def centralAllocate (sc : Nat) : Program Nat := Prog.perform (Action.centralAllocate sc)

def spanFor (ptr : Nat) : Program (Option SpanId) := Prog.perform (Action.spanFor ptr)

def spanSize (s : SpanId) : Program Nat := Prog.perform (Action.spanSize s)

def centralDeallocate (sc : Nat) (s : SpanId) (ptr : Nat) : Program Unit :=
  Prog.perform (Action.centralDeallocate sc s ptr)

/-- `CentralFreeList::allocate_batch`: the objects in the order they are stored. -/
def allocateBatch (sc : Nat) : (count : Nat) → Program (List Nat)
  | 0 => pure []
  | count + 1 => do
      let p ← centralAllocate sc
      if p = 0 then pure []
      else
        let ps ← allocateBatch sc count
        pure (p :: ps)

/-- `CentralFreeList::deallocate`. -/
def centralFree (sc ptr : Nat) : Program Unit :=
  if ptr = 0 then pure ()
  else do
    match ← spanFor ptr with
    | none => pure ()
    | some s => centralDeallocate sc s ptr

/-- `CentralFreeList::deallocate_batch`. -/
def deallocateBatch (sc : Nat) : List Nat → Program Unit
  | [] => pure ()
  | ptr :: ptrs => do
      centralFree sc ptr
      deallocateBatch sc ptrs

def refillBatch (sc count : Nat) : Program (List Nat) := do
  let batch ← removeRange sc count
  if batch.length = 0 then allocateBatch sc count else pure batch

def releaseBatch (sc : Nat) (batch : List Nat) : Program Unit := do
  let inserted ← insertRange sc batch
  if inserted < batch.length then deallocateBatch sc (batch.drop inserted) else pure ()

/-- The loop of `allocate` that republishes `batch[0 .. got)`, last first. -/
def republish (sc : Nat) (batch : List Nat) : (got : Nat) → Program Unit
  | 0 => pure ()
  | got + 1 => do
      if ← slabPush sc (batch.getD got 0) then republish sc batch got
      else releaseBatch sc (batch.take (got + 1))

/-- `Allocator::allocate`. -/
def allocate (inputSize : Nat) : Program Nat :=
  let (sc, scIdx) := roundSizeClass inputSize
  if sc.size = 0 then pure 0
  else do
    let ptr ← slabPop scIdx
    if ptr ≠ 0 then pure ptr
    else
      let batch ← refillBatch scIdx sc.batchSize
      let got := batch.length
      if got = 0 then pure 0
      else
        let result := batch.getD (got - 1) 0
        republish scIdx batch (got - 1)
        pure result

/-- The loop of `deallocate` that drains the slab into `batch`, `left` objects at most. -/
def drain (sc : Nat) : (left : Nat) → (batch : List Nat) → Program (List Nat)
  | 0, batch => pure batch
  | left + 1, batch => do
      let ptr ← slabPop sc
      if ptr = 0 then pure batch else drain sc left (batch ++ [ptr])

/-- The end of `Allocator::deallocate`, on a full slab: make room and try again. -/
def deallocateSlow (scIdx batchSize mem : Nat) : Program Unit := do
  let batch ← drain scIdx batchSize []
  (if 0 < batch.length then releaseBatch scIdx batch else pure ())
  if ← slabPush scIdx mem then pure () else centralFree scIdx mem

/-- `Allocator::deallocate`. -/
def deallocate (mem : Nat) : Program Unit := do
  match ← spanFor mem with
  | none => pure ()
  | some span =>
      let size ← spanSize span
      let scIdx := sizeClassToIdx size
      let sc := sizeClass scIdx
      if sc.size = 0 then pure ()
      else if ← slabPush scIdx mem then pure ()
      else deallocateSlow scIdx sc.batchSize mem

end Program

/-! ### Threads and clients -/

inductive Call where
  | allocate (inputSize : Nat)
  | deallocate (mem : Nat)

abbrev Result : Call → Type
  | .allocate _ => Nat
  | .deallocate _ => Unit

def Call.program : (c : Call) → Program (Result c)
  | .allocate n => Program.allocate n
  | .deallocate p => Program.deallocate p

/-- A block of a client: its address and the size asked for. -/
structure Block where
  ptr : Nat
  size : Nat
deriving DecidableEq

/-- The class that serves the block. -/
def Block.sc (b : Block) : Nat := (roundSizeClass b.size).2

/-- A client stores `value` in `len` bytes of its block. -/
structure ClientWrite where
  block : Block
  offset : Nat
  len : Nat
  value : Nat

/-- What a call holds: per class the objects it has got and not yet passed on, the spans it has
looked up for them, and whether the central list has had nothing for it. -/
structure Held where
  objs : Nat → Multiset Nat := 0
  route : Nat → Option SpanId := fun _ => none
  starved : Bool := false

namespace Held

def gain (g : Held) (sc : Nat) (ps : Multiset Nat) : Held :=
  { g with objs := inClass sc ps + g.objs }

/-- Without the objects `ps`; what was known of them is forgotten. -/
def lose (g : Held) (sc : Nat) (ps : Multiset Nat) : Held where
  objs := g.objs - inClass sc ps
  route p := if p ∈ ps then none else g.route p
  starved := g.starved

/-- What the call holds after an action. -/
def track (g : Held) : (a : Action) → Answer a → Held
  | .slabPop sc, p => if p = (0 : Nat) then g else g.gain sc {p}
  | .slabPush sc ptr, ok => if ok = true then g.lose sc {ptr} else g
  | .removeRange sc _, (batch : List Nat) => g.gain sc batch
  | .insertRange sc batch, (n : Nat) => g.lose sc (batch.take n)
  | .centralAllocate sc, p => if p = (0 : Nat) then { g with starved := true } else g.gain sc {p}
  | .spanFor ptr, s => { g with route := Function.update g.route ptr s }
  | .spanSize _, _ => g
  | .centralDeallocate sc _ ptr, _ => g.lose sc {ptr}

end Held

structure World where
  allocator : Allocator
  /-- the blocks of the clients -/
  live : List Block

namespace World

/-- `Allocator()` in a process that has mapped `foreign`: the slabs are mapped at page `slabPage`
and zero, everything else is empty. -/
def init (mem : Memory) (foreign : Nat → Bool) (slabPage slabCount : Nat) : World where
  allocator :=
    let base := slabPage * pageSize
    let bytes := slabCount * slabStrideBytes
    let zeroed : Memory :=
      { mem with byte := fun a => if base ≤ a ∧ a < base + bytes then 0 else mem.byte a }
    let mapped : Nat → Bool := fun q =>
      foreign q || (slabPage ≤ q && q < slabPage + (bytes + pageSize - 1) / pageSize)
    { backend := Backend.init zeroed (PageHeap.init mapped) sizeClass
      transferCaches := fun _ => {}
      perCpuCaches := base
      slabCount := slabCount }
  live := []

def perform (e : Env) (w : World) (a : Action) : Option (Answer a × World) :=
  (w.allocator.perform e a).map fun r => (r.1, { w with allocator := r.2 })

/-- `allocate` may always be called, `deallocate` on a live block, which the caller gives up. -/
def begin (w : World) : Call → Option (Held × World)
  | .allocate _ => some ({}, w)
  | .deallocate p => (w.live.find? fun b => b.ptr = p).map fun b =>
      (({} : Held).gain b.sc {p}, { w with live := w.live.erase b })

/-- The block that `allocate` returns is live from then on. -/
def finish (w : World) : (c : Call) → Result c → World
  | .allocate n, p => if p = (0 : Nat) then w else { w with live := ⟨p, n⟩ :: w.live }
  | .deallocate _, _ => w

/-- A client writes inside one of its blocks. -/
def client (w : World) (x : ClientWrite) : Option World :=
  if x.block ∈ w.live ∧ x.offset + x.len ≤ x.block.size then
    let m := w.allocator.backend.mem.store (x.block.ptr + x.offset) x.len x.value
    some { w with allocator := w.allocator.setMem m }
  else none

end World

/-- The allocator, its threads and its clients. -/
def machine : Machine Call Result Action Answer Env ClientWrite World Held where
  program := Call.program
  perform := World.perform
  begin := World.begin
  finish := World.finish
  client := World.client
  track := Held.track

/-- The allocator with the threads `ι`. -/
abbrev Process (ι : Type) := Config ι Call Result Action Answer World Held

/-- A new process, all threads idle. -/
def Process.init (ι : Type) (mem : Memory) (foreign : Nat → Bool) (slabPage slabCount : Nat) :
    Process ι :=
  Machine.rest (World.init mem foreign slabPage slabCount)

abbrev Process.system (ι : Type) [DecidableEq ι] :
    System (Process ι) (Step ι Call Env ClientWrite) :=
  machine.system ι

end TieredAllocator
