import TieredAllocator.Lib.Memory
import TieredAllocator.Config.Layout

/-!
# Caches — definitions

The per-CPU slabs of `slabs.hpp` and the transfer caches of `transfer_cache.hpp`.

The slabs are one mapped region, a slab every `SLAB_STRIDE_BYTES`.  A slab is a header of 16-bit
counts, one per size class, and an array of pointers of which each class owns a slice; they are
read and written in memory, as the source lays them out.  A transfer cache is its occupied slots,
`slots[0 .. used_slots)`, and never more than its capacity.
-/

namespace TieredAllocator
open Lib

/-! ### The layout of a slab -/

def alignUp (value alignment : Nat) : Nat :=
  if alignment = 0 then value else (value + alignment - 1) / alignment * alignment

/-- Where the pointers begin: behind the counts. -/
def slabPointersOffset : Nat := alignUp (numSizeClasses * 2) cacheLineSize

def slabRawByteSize : Nat := slabPointersOffset + slabOffset numSizeClasses * 8

def slabStrideAlignment : Nat := if pageAlignSlabStride then pageSize else cacheLineSize

def slabStrideBytes : Nat := alignUp slabRawByteSize slabStrideAlignment

namespace Slabs

/-- `currents[sc]` of the slab at `slab`. -/
def current (m : Memory) (slab sc : Nat) : Nat := m.load (slab + 2 * sc) 2

def setCurrent (m : Memory) (slab sc v : Nat) : Memory := m.store (slab + 2 * sc) 2 v

/-- `pointers[idx]`. -/
def pointer (m : Memory) (slab idx : Nat) : Nat := m.load (slab + slabPointersOffset + 8 * idx) 8

def setPointer (m : Memory) (slab idx v : Nat) : Memory :=
  m.store (slab + slabPointersOffset + 8 * idx) 8 v

/-- `fallback_allocate`: the top of the stack of the class, 0 if it is empty. -/
def fallbackAllocate (m : Memory) (slab sc : Nat) : Nat × Memory :=
  let cur := current m slab sc
  if 0 < cur then
    let idx := slabOffset sc + cur - 1
    (pointer m slab idx, setCurrent m slab sc (cur - 1))
  else (0, m)

/-- `fallback_deallocate`: onto the stack of the class, unless it is full. -/
def fallbackDeallocate (m : Memory) (slab mem sc : Nat) : Bool × Memory :=
  let cur := current m slab sc
  if cur < slabCapacity sc then
    let idx := slabOffset sc + cur
    (true, setCurrent (setPointer m slab idx mem) slab sc (cur + 1))
  else (false, m)

def getSlabs (base cpu : Nat) : Nat := base + cpu * slabStrideBytes

def getSlabsChecked (base count cpu : Nat) : Option Nat :=
  if count ≤ cpu then none else some (getSlabs base cpu)

/-- `slab_pop` on the CPU `cpu`. -/
def slabPop (m : Memory) (base count cpu sc : Nat) : Nat × Memory :=
  match getSlabsChecked base count cpu with
  | some slab => fallbackAllocate m slab sc
  | none => (0, m)

/-- `slab_push` on the CPU `cpu`. -/
def slabPush (m : Memory) (base count cpu sc ptr : Nat) : Bool × Memory :=
  match getSlabsChecked base count cpu with
  | some slab => fallbackDeallocate m slab ptr sc
  | none => (false, m)

end Slabs

/-! ### The transfer cache -/

structure TransferCache where
  slots : List Nat := []
  bounded : slots.length ≤ transferCacheCapacity := by decide

namespace TransferCache

/-- `InsertRange`: as many of the batch as there is space for; returns how many. -/
def insertRange (tc : TransferCache) (batch : List Nat) : Nat × TransferCache :=
  let space := transferCacheCapacity - tc.slots.length
  let toInsert := min batch.length space
  (toInsert,
    { slots := tc.slots ++ batch.take toInsert
      bounded := by
        have := tc.bounded
        simp only [List.length_append, List.length_take]
        omega })

/-- `RemoveRange`: the last `n` slots, or all of them. -/
def removeRange (tc : TransferCache) (n : Nat) : List Nat × TransferCache :=
  let toRemove := min n tc.slots.length
  let usedSlots := tc.slots.length - toRemove
  (tc.slots.drop usedSlots,
    { slots := tc.slots.take usedSlots
      bounded := by
        have := tc.bounded
        simp only [List.length_take]
        omega })

end TransferCache

end TieredAllocator
