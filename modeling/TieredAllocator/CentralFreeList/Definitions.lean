import TieredAllocator.Lib.Memory
import TieredAllocator.PageHeap.Definitions

/-!
# Central free list — definitions

`central_free_list.hpp`, function by function.  The central free lists share one page heap and
one memory (`Backend`); the list of a size class is named by the index of the class.  A pointer
is an address, 0 is `nullptr`.  What a method does inside one span is a function on the memory
and the `Span` (`populate`, `take`, `give`), so that the methods themselves only choose the span
and store the result.

`none` is undefined behaviour or a failed assertion, as for the page heap.  `num_free` and
`num_free_objects` are `uint32_t` and wrap; the 16-bit indexes are truncated where they are
stored.
-/

namespace TieredAllocator
open Lib

theorem add32_mod (k n m : Nat) : add32 ((k + n) % 2 ^ 32) m = (k + (n + m)) % 2 ^ 32 := by
  simp only [add32]
  omega

theorem sub32_mod (k n m : Nat) (hm : m < 2 ^ 32) :
    sub32 ((k + (n + m)) % 2 ^ 32) m = (k + n) % 2 ^ 32 := by
  simp only [sub32]
  omega

/-! ### Packed nodes -/

namespace PackedNode

/-- `sizeof(PackedNode)`: two 16-bit fields. -/
def bytes : Nat := 4

def nextIdx (m : Memory) (node : Nat) : Nat := m.load node 2

def setNextIdx (m : Memory) (node v : Nat) : Memory := m.store node 2 v

def count (m : Memory) (node : Nat) : Nat := m.load (node + 2) 2

def setCount (m : Memory) (node v : Nat) : Memory := m.store (node + 2) 2 v

end PackedNode

/-- A node stored in an object of `objSize` bytes packs this many indexes, in 16 bits. -/
def packCapacity (objSize : Nat) : Nat :=
  if objSize < PackedNode.bytes then 0 else (objSize - PackedNode.bytes) / 2 % 2 ^ 16

def indexToPtr (idx base objSize : Nat) : Nat := base + idx * objSize

def ptrToIndex (ptr base objSize : Nat) : Nat := (ptr - base) / objSize % 2 ^ 16

/-- `packed_indexes`: the array behind the node. -/
def packedIndexes (node : Nat) : Nat := node + PackedNode.bytes

/-- `slots[j]`. -/
def slotAt (m : Memory) (slots j : Nat) : Nat := m.load (slots + 2 * j) 2

def setSlotAt (m : Memory) (slots j v : Nat) : Memory := m.store (slots + 2 * j) 2 v

namespace Span

/-- The address of the first page. -/
def base (x : Span) : Nat := x.start * pageSize

/-- `span_has_available_objects`. -/
def hasAvailableObjects (x : Span) : Bool :=
  x.freelistHead ≠ invalidIndex || x.nextUninitialized < x.totalObjects

end Span

/-! ### Inside one span -/

/-- The inner loop of `populate_span`: packs indexes from `i` on while there is room; returns
how many, and the next index. -/
def packSlots (slots cap chunkEnd : Nat) :
    (fuel : Nat) → (m : Memory) → (packed i : Nat) → Memory × Nat × Nat
  | 0, m, packed, i => (m, packed, i)
  | fuel + 1, m, packed, i =>
      if packed < cap ∧ i < chunkEnd then
        packSlots slots cap chunkEnd fuel (setSlotAt m slots packed i) (packed + 1) (i + 1)
      else (m, packed, i)

/-- The outer loop of `populate_span`: one node per round, from index `i` on; also counts the
objects that become free.  Each round advances `i`, so `chunkEnd - i` rounds are enough. -/
def carveNodes (size cap chunkEnd : Nat) :
    (fuel : Nat) → (m : Memory) → (x : Span) → (i freed : Nat) → Memory × Span × Nat
  | 0, m, x, _, freed => (m, x, freed)
  | fuel + 1, m, x, i, freed =>
      if i < chunkEnd then
        let nodeIdx := i % 2 ^ 16
        let node := indexToPtr nodeIdx x.base size
        let m := PackedNode.setNextIdx m node x.freelistHead
        let (m, packed, i) := packSlots (packedIndexes node) cap chunkEnd (chunkEnd - i) m 0 (i + 1)
        let m := PackedNode.setCount m node packed
        let x := { x with
          freelistHead := nodeIdx, numFreeObjects := add32 x.numFreeObjects (1 + packed) }
        carveNodes size cap chunkEnd fuel m x i (freed + (1 + packed))
      else (m, x, freed)

/-- The work of `populate_span`, and what it adds to `num_free`. -/
def populate (m : Memory) (size : Nat) (x : Span) : Memory × Span × Nat :=
  if x.totalObjects ≤ x.nextUninitialized then (m, x, 0)
  else
    let objectsPerChunk := max (pageSize / size) 1
    let chunkEnd := min x.totalObjects (x.nextUninitialized + objectsPerChunk)
    let (m, x, freed) := carveNodes size (packCapacity size) chunkEnd
      (chunkEnd - x.nextUninitialized) m x x.nextUninitialized 0
    (m, { x with nextUninitialized := chunkEnd }, freed)

/-- The end of `allocate`: an object off the free list of `x`. -/
def take (m : Memory) (size : Nat) (x : Span) : Nat × Memory × Span :=
  let node := indexToPtr x.freelistHead x.base size
  if 0 < PackedNode.count m node then
    let count := PackedNode.count m node - 1
    let m := PackedNode.setCount m node count
    let idx := slotAt m (packedIndexes node) count
    (indexToPtr idx x.base size, m, { x with numFreeObjects := sub32 x.numFreeObjects 1 })
  else
    (node, m, { x with
      freelistHead := PackedNode.nextIdx m node, numFreeObjects := sub32 x.numFreeObjects 1 })

/-- The work of `deallocate`: an object onto the free list of `x`, packed into the head if there
is room and as a new head otherwise. -/
def give (m : Memory) (size : Nat) (x : Span) (ptr : Nat) : Memory × Span :=
  let freedIdx := ptrToIndex ptr x.base size
  let head := indexToPtr x.freelistHead x.base size
  let count := PackedNode.count m head
  if x.freelistHead ≠ invalidIndex ∧ count < packCapacity size then
    let m := PackedNode.setCount m head (count + 1)
    let m := setSlotAt m (packedIndexes head) count freedIdx
    (m, { x with numFreeObjects := add32 x.numFreeObjects 1 })
  else
    let m := PackedNode.setNextIdx m ptr x.freelistHead
    let m := PackedNode.setCount m ptr 0
    (m, { x with freelistHead := freedIdx, numFreeObjects := add32 x.numFreeObjects 1 })

/-! ### The methods -/

structure CentralFreeList where
  spanList : Option SpanId := none
  currentSpan : Option SpanId := none
  /-- the object size of the class -/
  size : Nat
  numFree : Nat := 0
  /-- pages of a span of the class -/
  pages : Nat

/-- What the central free lists share, and the lists, one per size class. -/
structure Backend where
  mem : Memory
  pageHeap : PageHeap
  freeList : Nat → CentralFreeList

namespace Backend

/-- Central free lists for the classes of a table, none of which has a span. -/
def init (mem : Memory) (pageHeap : PageHeap) (table : Nat → SizeClassInfo) : Backend where
  mem := mem
  pageHeap := pageHeap
  freeList c := { size := (table c).size, pages := (table c).pages }

def setList (b : Backend) (c : Nat) (l : CentralFreeList) : Backend :=
  { b with freeList := Function.update b.freeList c l }

def setSpan (b : Backend) (s : SpanId) (x : Span) : Backend :=
  { b with pageHeap := b.pageHeap.set s x }

/-- The walk of `find_available_span`. -/
def findAvailable (spans : SpanId → Option Span) :
    (fuel : Nat) → Option SpanId → Option (Option SpanId)
  | 0, _ => none
  | _ + 1, none => some none
  | fuel + 1, some s => do
      let x ← spans s
      if x.hasAvailableObjects then some (some s) else findAvailable spans fuel x.next

def findAvailableSpan (b : Backend) (c : Nat) : Option (Option SpanId) :=
  findAvailable b.pageHeap.spans b.pageHeap.walkFuel (b.freeList c).spanList

def populateSpan (b : Backend) (c : Nat) (s : SpanId) : Option Backend := do
  let x ← b.pageHeap.spans s
  let l := b.freeList c
  let (m, x, freed) := populate b.mem l.size x
  some (({ b with mem := m }.setSpan s x).setList c { l with numFree := add32 l.numFree freed })

def fetchFromPageHeap (k : Kernel) (b : Backend) (c : Nat) : Option Backend := do
  let l := b.freeList c
  if l.size = 0 ∨ l.pages = 0 then some b
  else
    match ← b.pageHeap.allocateSpan k l.pages l.size with
    | (none, h) => some { b with pageHeap := h }
    | (some s, h) => do
        let x ← h.spans s
        let h := h.set s { x with next := l.spanList, prev := none }
        let h ← match l.spanList with
          | some t => do
              let y ← h.spans t
              some (h.set t { y with prev := some s })
          | none => some h
        let x ← h.spans s
        let count := x.numPages * pageSize / l.size % 2 ^ 32
        -- the assertion on 16-bit indexes
        if invalidIndex < count then none
        else
          let h := h.set s { x with
            totalObjects := count
            freelistHead := invalidIndex
            numFreeObjects := 0
            nextUninitialized := 0 }
          some ({ b with pageHeap := h }.setList c
            { l with spanList := some s, currentSpan := some s })

def releaseToPageHeap (b : Backend) (c : Nat) (s : SpanId) : Option Backend := do
  let l := b.freeList c
  let x ← b.pageHeap.spans s
  let current := if l.currentSpan = some s then none else l.currentSpan
  let (spans, head) ← unlink b.pageHeap.spans l.spanList s
  let y ← spans s
  let h := { b.pageHeap with spans := spans }.set s { y with
    freelistHead := invalidIndex
    numFreeObjects := 0
    totalObjects := 0
    nextUninitialized := 0 }
  let h ← h.returnSpan (some s)
  some ({ b with pageHeap := h }.setList c
    { l with
      spanList := head
      currentSpan := current
      numFree := sub32 l.numFree x.numFreeObjects })

/-- The cached span is usable as it is. -/
def currentAvailable (b : Backend) (c : Nat) : Option Bool :=
  match (b.freeList c).currentSpan with
  | none => some false
  | some s => (b.pageHeap.spans s).map Span.hasAvailableObjects

/-- The beginning of `allocate`: caches a span with an available object, a new one if needed. -/
def chooseSpan (k : Kernel) (b : Backend) (c : Nat) : Option Backend := do
  let b ← if ← b.currentAvailable c then some b
    else do
      let s ← b.findAvailableSpan c
      some (b.setList c { b.freeList c with currentSpan := s })
  if (b.freeList c).currentSpan.isNone then b.fetchFromPageHeap k c else some b

/-- The rest of `allocate`, where `current_span` is `s`. -/
def takeFrom (b : Backend) (c : Nat) (s : SpanId) : Option (Nat × Backend) := do
  let x ← b.pageHeap.spans s
  let b ← if x.freelistHead = invalidIndex then b.populateSpan c s else some b
  let x ← b.pageHeap.spans s
  if x.freelistHead = invalidIndex then some (0, b)
  else
    let l := b.freeList c
    let (result, m, x) := take b.mem l.size x
    some (result, ({ b with mem := m }.setSpan s x).setList c
      { l with numFree := sub32 l.numFree 1 })

def allocate (k : Kernel) (b : Backend) (c : Nat) : Option (Nat × Backend) := do
  let b ← b.chooseSpan k c
  match (b.freeList c).currentSpan with
  | none => some (0, b)
  | some s => b.takeFrom c s

/-- The part of `deallocate` under the lock of the list. -/
def deallocateLocked (b : Backend) (c : Nat) (s : SpanId) (ptr : Nat) : Option Backend := do
  let l := b.freeList c
  -- division by the object size
  if l.size = 0 then none
  else
    let x ← b.pageHeap.spans s
    let (m, x) := give b.mem l.size x ptr
    let b := ({ b with mem := m }.setSpan s x).setList c { l with numFree := add32 l.numFree 1 }
    if x.numFreeObjects = x.totalObjects then b.releaseToPageHeap c s else some b

def deallocate (b : Backend) (c : Nat) (ptr : Nat) : Option Backend :=
  if ptr = 0 then some b
  else
    match b.pageHeap.spanFor ptr with
    | none => some b
    | some s => b.deallocateLocked c s ptr

/-- `allocate_batch`: the objects in the order they were stored. -/
def allocateBatch (k : Kernel) (c : Nat) : (count : Nat) → Backend → Option (List Nat × Backend)
  | 0, b => some ([], b)
  | count + 1, b => do
      let (ptr, b) ← b.allocate k c
      if ptr = 0 then some ([], b)
      else
        let (ptrs, b) ← allocateBatch k c count b
        some (ptr :: ptrs, b)

def deallocateBatch (c : Nat) : List Nat → Backend → Option Backend
  | [], b => some b
  | ptr :: ptrs, b => do
      let b ← b.deallocate c ptr
      deallocateBatch c ptrs b

/-! #### The destructor -/

/-- The loop of `~CentralFreeList`. -/
def destroyWalk : (fuel : Nat) → (b : Backend) → (curr : Option SpanId) → Option Backend
  | 0, _, _ => none
  | _ + 1, b, none => some b
  | fuel + 1, b, some s => do
      let x ← b.pageHeap.spans s
      let h := b.pageHeap.set s { x with
        next := none
        prev := none
        freelistHead := invalidIndex
        numFreeObjects := 0
        totalObjects := 0
        nextUninitialized := 0 }
      let h ← h.returnSpan (some s)
      destroyWalk fuel { b with pageHeap := h } x.next

/-- `~CentralFreeList`. -/
def destroyFreeList (b : Backend) (c : Nat) : Option Backend := do
  let b ← destroyWalk b.pageHeap.walkFuel b (b.freeList c).spanList
  some (b.setList c { b.freeList c with spanList := none, currentSpan := none, numFree := 0 })

/-- The destructors of `free_list[0]` to `free_list[n - 1]`, the last one first. -/
def destroyFreeLists : (n : Nat) → (b : Backend) → Option Backend
  | 0, b => some b
  | n + 1, b => do
      let b ← b.destroyFreeList n
      destroyFreeLists n b

end Backend

end TieredAllocator
