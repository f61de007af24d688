import TieredAllocator.Lib.Memory
import TieredAllocator.Lib.Runs

/-!
# Old design — definitions

The first allocator of the repository: one free list over a segment that grows by `sbrk`, with
boundary tags, and `mmap` for large requests.  A block is the address of its header

    size : 8 bytes | is_free : 1 | mapped : 1 | (pad) | next : 8 | memory | size : 8 | mapped : 1

and the footer stands behind the memory.  Addresses and sizes are 64-bit numbers; 0 is `nullptr`.
Each operation holds the mutex from its first step to its last, so it is one step here.
-/

namespace TieredAllocator.Old
open Lib

/-- `header_size()`, the offset of `memory` in `Block`. -/
def headerSize : Nat := 24

/-- `footer_size()`, `sizeof(Footer)`. -/
def footerSize : Nat := 16

def overheadSize : Nat := headerSize + footerSize

def mmapThreshold : Nat := 400

def initialChunk : Nat := 4096

/-- `(void*)-1`. -/
def minusOne : Nat := 2 ^ 64 - 1

/-! ### 64-bit arithmetic -/

def add64 (a b : Nat) : Nat := (a + b) % 2 ^ 64

def sub64 (a b : Nat) : Nat := (a + (2 ^ 64 - b % 2 ^ 64)) % 2 ^ 64

/-- `static_cast<intptr_t>`. -/
def toIntptr (n : Nat) : Int := if n < 2 ^ 63 then n else (n : Int) - 2 ^ 64

theorem add64_eq {a b : Nat} (h : a + b < 2 ^ 64) : add64 a b = a + b := Nat.mod_eq_of_lt h

theorem sub64_eq {a b : Nat} (h : b ≤ a) (ha : a < 2 ^ 64) : sub64 a b = a - b := by
  rw [sub64, Nat.mod_eq_of_lt (by omega : b < 2 ^ 64),
    show a + (2 ^ 64 - b) = a - b + 2 ^ 64 by omega, Nat.add_mod_right, Nat.mod_eq_of_lt (by omega)]

/-! ### The operating system -/

/-- The kernel's choices for one call: whether it grants `sbrk`, `brk` and `munmap`, and the address
it offers for `mmap`; `none` is `MAP_FAILED`. -/
structure Kernel where
  sbrk : Bool
  brk : Bool
  munmap : Bool
  mmap : Option Nat

structure Os where
  /-- where the segment that `brk` moves starts -/
  startBrk : Nat
  /-- the program break -/
  brk : Nat
  /-- the addresses mapped outside that segment, by whomever -/
  mapped : Nat → Bool
  startBrk_pos : 0 < startBrk
  startBrk_le : startBrk ≤ brk

namespace Os

/-- No range that a process uses ends beyond it. -/
def addressLimit : Nat := 2 ^ 64 - 1

/-- Nothing is mapped in the `n` addresses from `start`. -/
def clear (os : Os) (start n : Nat) : Bool :=
  start + n ≤ addressLimit && (List.range n).all fun i => !os.mapped (start + i)

/-- The `n` addresses from `start` meet the segment. -/
def meetsSegment (os : Os) (start n : Nat) : Bool := os.startBrk < start + n && start < os.brk

/-- `sbrk`: the old program break, or `(void*)-1`. -/
def sbrk (k : Kernel) (os : Os) (increment : Int) : Option Nat × Os :=
  let top := ((os.brk : Int) + increment).toNat
  if h : os.startBrk ≤ top then
    if k.sbrk && os.clear os.brk (top - os.brk) then
      (some os.brk, { os with brk := top, startBrk_le := h })
    else (none, os)
  else (none, os)

/-- `brk`, and whether it succeeded. -/
def setBrk (k : Kernel) (os : Os) (top : Nat) : Bool × Os :=
  if h : os.startBrk ≤ top then
    if k.brk then (true, { os with brk := top, startBrk_le := h }) else (false, os)
  else (false, os)

/-- `mmap` of `n` bytes: the address, or `MAP_FAILED`. -/
def mmap (k : Kernel) (os : Os) (n : Nat) : Option Nat × Os :=
  match k.mmap with
  | none => (none, os)
  | some start =>
      if 0 < n && 0 < start && os.clear start n && !os.meetsSegment start n then
        (some start, { os with mapped := fun x => (start ≤ x && x < start + n) || os.mapped x })
      else (none, os)

/-- `munmap`, and whether it succeeded. -/
def munmap (k : Kernel) (os : Os) (start n : Nat) : Bool × Os :=
  if k.munmap then
    (true, { os with mapped := fun x => !(start ≤ x && x < start + n) && os.mapped x })
  else (false, os)

end Os

/-! ### The allocator -/

structure Allocator where
  freeList : Nat
  prevSearchEnd : Nat
  availableBytes : Nat
  brkHeapStart : Nat
  brkHeapEnd : Nat
  mem : Memory
  os : Os

namespace Allocator

def size (a : Allocator) (block : Nat) : Nat := a.mem.load block 8

def isFree (a : Allocator) (block : Nat) : Bool := a.mem.load (block + 8) 1 != 0

def mapped (a : Allocator) (block : Nat) : Bool := a.mem.load (block + 9) 1 != 0

def next (a : Allocator) (block : Nat) : Nat := a.mem.load (block + 16) 8

def setSize (a : Allocator) (block v : Nat) : Allocator := { a with mem := a.mem.store block 8 v }

def setIsFree (a : Allocator) (block : Nat) (v : Bool) : Allocator :=
  { a with mem := a.mem.store (block + 8) 1 v.toNat }

def setMapped (a : Allocator) (block : Nat) (v : Bool) : Allocator :=
  { a with mem := a.mem.store (block + 9) 1 v.toNat }

def setNext (a : Allocator) (block v : Nat) : Allocator :=
  { a with mem := a.mem.store (block + 16) 8 v }

def blockSpan (a : Allocator) (block : Nat) : Nat := add64 overheadSize (a.size block)

def blockEnd (a : Allocator) (block : Nat) : Nat := add64 block (a.blockSpan block)

def footerOf (a : Allocator) (block : Nat) : Nat := add64 (block + headerSize) (a.size block)

def writeFooter (a : Allocator) (block : Nat) : Allocator :=
  let footer := a.footerOf block
  { a with
    mem := (a.mem.store footer 8 (a.size block)).store (footer + 8) 1 (a.mapped block).toNat }

def nextPhys (a : Allocator) (block : Nat) : Nat :=
  if block = 0 ∨ a.mapped block then 0
  else
    let nextAddr := a.blockEnd block
    if a.brkHeapEnd = 0 ∨ a.brkHeapEnd ≤ nextAddr then 0 else nextAddr

def prevPhys (a : Allocator) (block : Nat) : Nat :=
  if block = 0 ∨ a.mapped block ∨ a.brkHeapStart = 0 then 0
  else if block ≤ add64 a.brkHeapStart headerSize then 0
  else
    let prevFooter := sub64 block footerSize
    let prevSize := a.mem.load prevFooter 8
    let prevAddr := sub64 block (add64 overheadSize prevSize)
    if prevAddr < a.brkHeapStart then 0
    else if a.mapped prevAddr = (a.mem.load (prevFooter + 8) 1 != 0) then prevAddr else 0

/-! #### The free list -/

def insertFree (a : Allocator) (block : Nat) : Allocator :=
  { a.setNext block a.freeList with freeList := block }

/-- The loop of `unlink_free`: `prev` and `curr` when it stops.  All loops below return `none` when
`fuel` is less than the number of their rounds. -/
def findFree (a : Allocator) (block : Nat) : (fuel : Nat) → (prev curr : Nat) → Option (Nat × Nat)
  | 0, _, _ => none
  | fuel + 1, prev, curr =>
      if curr ≠ 0 ∧ curr ≠ block then findFree a block fuel curr (a.next curr)
      else some (prev, curr)

def unlinkFree (fuel : Nat) (a : Allocator) (block : Nat) : Option (Bool × Allocator) := do
  let (prev, curr) ← a.findFree block fuel 0 a.freeList
  if curr = 0 then some (false, a)
  else
    let a := if prev ≠ 0 then a.setNext prev (a.next curr) else { a with freeList := a.next curr }
    let a := if curr = a.prevSearchEnd then { a with prevSearchEnd := prev } else a
    let a := a.setIsFree curr false
    let a := a.setNext curr 0
    some (true, a)

/-! #### Making, merging and splitting blocks -/

/-- The new block, or `nullptr`. -/
def createBlock (k : Kernel) (a : Allocator) (size : Nat) (isFree mapped : Bool) (next : Nat) :
    Nat × Allocator :=
  let (ok, os) :=
    if mapped then a.os.mmap k (add64 size overheadSize)
    else a.os.sbrk k (toIntptr (add64 size overheadSize))
  let a := { a with os := os }
  match ok with
  | none => (0, a)
  | some block =>
      let a := a.setSize block size
      let a := a.setIsFree block isFree
      let a := a.setMapped block mapped
      let a := a.setNext block next
      let a := a.writeFooter block
      if mapped then (block, a)
      else
        let a := if a.brkHeapStart = 0 then { a with brkHeapStart := block } else a
        (block, { a with brkHeapEnd := a.blockEnd block })

/-- The constructor; `free_list` and `available_bytes` hold nothing until it sets them. -/
def init (k : Kernel) (mem : Memory) (os : Os) : Allocator :=
  let a : Allocator := ⟨0, 0, 0, 0, 0, mem, os⟩
  let (startBlock, a) := a.createBlock k initialChunk true false 0
  if startBlock = 0 then { a with freeList := 0, availableBytes := 0 }
  else { a with freeList := startBlock, availableBytes := a.size startBlock }

/-- The block `block` joins the one before it, if that is free. -/
def coalescePrev (a : Allocator) (block : Nat) : Nat × Allocator :=
  let prev := a.prevPhys block
  if prev ≠ 0 ∧ a.isFree prev ∧ a.mapped prev = a.mapped block then
    let a := a.setSize prev (add64 (a.size prev) (add64 overheadSize (a.size block)))
    let a := a.writeFooter prev
    (prev, { a with availableBytes := add64 a.availableBytes overheadSize })
  else (block, a)

/-- The loop of `coalesce_around`. -/
def coalesceNext : (fuel : Nat) → (a : Allocator) → (owner : Nat) → Option Allocator
  | 0, _, _ => none
  | fuel + 1, a, owner => do
      let next := a.nextPhys owner
      if next = 0 ∨ ¬ a.isFree next ∨ a.mapped next ≠ a.mapped owner then some a
      else
        let (_, a) ← a.unlinkFree fuel next
        let a := a.setSize owner (add64 (a.size owner) (add64 overheadSize (a.size next)))
        let a := a.writeFooter owner
        coalesceNext fuel { a with availableBytes := add64 a.availableBytes overheadSize } owner

def coalesceAround (fuel : Nat) (a : Allocator) (block : Nat) : Option (Nat × Allocator) := do
  if block = 0 ∨ a.mapped block then some (block, a)
  else
    let (owner, a) := a.coalescePrev block
    let a ← a.coalesceNext fuel owner
    some (owner, a)

def split (a : Allocator) (block partition : Nat) : Bool × Allocator :=
  if block = 0 ∨ a.size block < partition then (false, a)
  else if a.size block < add64 (add64 partition overheadSize) 1 then (false, a)
  else
    let originalSize := a.size block
    let originalMapped := a.mapped block
    let oldNext := a.next block
    let a := a.setSize block partition
    let a := a.writeFooter block
    let remainder := a.blockEnd block
    let a := a.setSize remainder (sub64 (sub64 originalSize partition) overheadSize)
    let a := a.setIsFree remainder true
    let a := a.setMapped remainder originalMapped
    let a := a.setNext remainder oldNext
    let a := a.writeFooter remainder
    let a := a.setNext block remainder
    (true, { a with availableBytes := sub64 a.availableBytes overheadSize })

/-! #### The public operations -/

/-- The search loop of `allocate`: `prev` and `curr` if it found a block. -/
def search (a : Allocator) (size : Nat) :
    (fuel : Nat) → (prev curr : Nat) → Option (Option (Nat × Nat))
  | 0, _, _ => none
  | fuel + 1, prev, curr =>
      if curr = 0 then some none
      else if a.isFree curr ∧ size ≤ a.size curr then some (some (prev, curr))
      -- at the end of the list, wrap around to the start
      else if a.prevSearchEnd ≠ 0 ∧ a.next curr = 0 then search a size fuel 0 a.freeList
      else if a.prevSearchEnd ≠ 0 ∧ a.next curr = a.next a.prevSearchEnd then some none
      else search a size fuel curr (a.next curr)

/-- The search from where the last one ended, if the list goes on there, else from its start. -/
def findFit (fuel : Nat) (a : Allocator) (size : Nat) : Option (Option (Nat × Nat)) :=
  if size ≤ a.availableBytes then
    if a.prevSearchEnd ≠ 0 ∧ a.next a.prevSearchEnd ≠ 0 then
      a.search size fuel a.prevSearchEnd (a.next a.prevSearchEnd)
    else a.search size fuel 0 a.freeList
  else some none

/-- The block `curr` behind `prev` is split and popped off the free list. -/
def take (a : Allocator) (size prev curr : Nat) : Nat × Allocator :=
  let (_, a) := a.split curr size
  let a :=
    if prev ≠ 0 then { a.setNext prev (a.next curr) with prevSearchEnd := prev }
    else { a with freeList := a.next curr, prevSearchEnd := 0 }
  let a := a.setNext curr 0
  let a := a.setIsFree curr false
  (curr + headerSize, { a with availableBytes := sub64 a.availableBytes (a.size curr) })

def allocate (k : Kernel) (fuel : Nat) (a : Allocator) (size : Nat) :
    Option (Nat × Allocator) := do
  match ← a.findFit fuel size with
  | some (prev, curr) => some (a.take size prev curr)
  | none =>
      let (newBlock, a) := a.createBlock k size false (mmapThreshold ≤ size) 0
      if newBlock = 0 then some (minusOne, a) else some (newBlock + headerSize, a)

def returnBack (fuel : Nat) (a : Allocator) (block : Nat) : Option (Bool × Allocator) := do
  if block = 0 ∨ a.isFree block then some (false, a)
  else
    let a := a.setIsFree block true
    let a := a.setNext block 0
    let a := { a with availableBytes := add64 a.availableBytes (a.size block) }
    let (merged, a) ← a.coalesceAround fuel block
    if merged = block then some (true, a.insertFree block) else some (true, a)

/-- What `deallocate(Block*)` does with a block that is on no list (any more). -/
def release (k : Kernel) (fuel : Nat) (a : Allocator) (block : Nat) :
    Option (Bool × Allocator) := do
  if a.mapped block then
    let (ok, os) := a.os.munmap k block (a.blockSpan block)
    some (ok, { a with os := os })
  -- only the tail of the heap shrinks it
  else if a.blockEnd block ≠ a.brkHeapEnd then
    let (_, a) ← a.returnBack fuel block
    some (true, a)
  else
    let (ok, os) := a.os.setBrk k block
    if ok then some (true, { a with os := os, brkHeapEnd := block }) else some (false, a)

/-- `deallocate(Block*)`. -/
def deallocateBlock (k : Kernel) (fuel : Nat) (a : Allocator) (block : Nat) :
    Option (Bool × Allocator) := do
  if block = 0 then some (false, a)
  else if a.isFree block then
    let (ok, a) ← a.unlinkFree fuel block
    if ok then
      release k fuel { a with availableBytes := sub64 a.availableBytes (a.size block) } block
    else some (false, a)
  else a.release k fuel block

/-- `deallocate(T*)`. -/
def deallocate (k : Kernel) (fuel : Nat) (a : Allocator) (ptr : Nat) : Option (Bool × Allocator) :=
  a.deallocateBlock k fuel (sub64 ptr headerSize)

/-- The block that `i` links lead to from the head of the free list, or `nullptr`. -/
def nthFree (a : Allocator) : (i : Nat) → Nat
  | 0 => a.freeList
  | i + 1 => if a.nthFree i = 0 then 0 else a.next (a.nthFree i)

end Allocator

/-! ### Clients -/

structure World where
  allocator : Allocator
  /-- the pointers handed out and not taken back -/
  live : List Nat

inductive Call where
  | allocate (size : Nat)
  /-- `deallocate` of a live pointer -/
  | deallocate (ptr : Nat)
  /-- `deallocate(Block*)` of the block that `i` links lead to on the free list -/
  | deallocateFree (i : Nat)
  /-- the client writes byte `i` of its memory -/
  | write (ptr i : Nat) (v : UInt8)

/-- A call, with as many rounds as its loops may take and the kernel's choices. -/
structure Step where
  call : Call
  fuel : Nat
  kernel : Kernel

namespace World

def allowed (w : World) : Call → Prop
  | .allocate size => size < 2 ^ 64
  | .deallocate ptr => ptr ∈ w.live
  | .deallocateFree i => w.allocator.nthFree i ≠ 0
  | .write ptr i _ => ptr ∈ w.live ∧ i < w.allocator.size (ptr - headerSize)

instance (w : World) : ∀ c, Decidable (w.allowed c)
  | .allocate size => inferInstanceAs (Decidable (size < _))
  | .deallocate ptr => inferInstanceAs (Decidable (ptr ∈ w.live))
  | .deallocateFree i => inferInstanceAs (Decidable (w.allocator.nthFree i ≠ 0))
  | .write ptr i _ => inferInstanceAs (Decidable (ptr ∈ w.live ∧ i < _))

/-- The state after a call, if its loops end within the rounds given. -/
def step (w : World) (s : Step) : Option World :=
  match s.call with
  | .allocate size =>
      (w.allocator.allocate s.kernel s.fuel size).map fun (ptr, a) =>
        ⟨a, if ptr = minusOne then w.live else ptr :: w.live⟩
  | .deallocate ptr =>
      (w.allocator.deallocate s.kernel s.fuel ptr).map fun (ok, a) =>
        ⟨a, if ok then w.live.erase ptr else w.live⟩
  | .deallocateFree i =>
      (w.allocator.deallocateBlock s.kernel s.fuel (w.allocator.nthFree i)).map fun (_, a) =>
        ⟨a, w.live⟩
  | .write ptr i v =>
      some { w with allocator.mem := w.allocator.mem.store (ptr + i) 1 v.toNat }

def init (k : Kernel) (mem : Memory) (os : Os) : World := ⟨.init k mem os, []⟩

def system : System World Step where
  allowed w s := w.allowed s.call
  step := step

instance (w : World) (s : Step) : Decidable (system.allowed w s) :=
  inferInstanceAs (Decidable (w.allowed s.call))

end World

end TieredAllocator.Old
