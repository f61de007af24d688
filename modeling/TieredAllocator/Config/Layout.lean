import TieredAllocator.Config.SizeClasses

/-!
# Config — constants and slab offsets

The constants of `config.hpp` and `compute_slab_offsets`: the pointer array of a slab is cut into
one slice per size class, `[slabOffset i, slabOffset (i + 1))`, by the prefix sums of the
capacities.  `slabOffset_add_capacity` and `slabOffset_le` are what the slabs use of them.
-/

namespace TieredAllocator

def cacheLineSize : Nat := 64
def pageSize : Nat := 4096
def maxPages : Nat := 255
def transferCacheCapacity : Nat := 100
def maxSlabPointers : Nat := 20000
def pageAlignSlabStride : Bool := false

/-- `byte_budget / size`, rounded down to a multiple of the batch size, at least one batch. -/
def budgetCapacity (i : Nat) : Nat :=
  let budget := (sizeClass i).byteBudget
  let batch := (sizeClass i).batchSize
  let raw := budget / (sizeClass i).size
  let cap := raw / batch * batch
  if cap < batch then batch else cap

def budgetTotal : Nat := ((List.range' 1 (numSizeClasses - 1)).map budgetCapacity).sum

/-- The capacities `compute_slab_offsets` sums: the budgeted ones, scaled down when their total is
above `MAX_SLAB_POINTERS`.  Class 0 has none. -/
def slabSlots (i : Nat) : Nat :=
  if i = 0 then 0
  else if maxSlabPointers < budgetTotal then
    let batch := (sizeClass i).batchSize
    let cap := budgetCapacity i * maxSlabPointers / budgetTotal
    let cap := cap / batch * batch
    if cap < batch then batch else cap
  else budgetCapacity i

/-- `SIZE_CLASS_OFFSETS[i]`, the prefix sums. -/
def slabOffset : Nat → Nat
  | 0 => 0
  | i + 1 => slabOffset i + slabSlots i

/-- `SIZE_CLASS_CAPACITIES[i]`. -/
def slabCapacity (i : Nat) : Nat := slabOffset (i + 1) - slabOffset i

theorem slabOffset_add_capacity (i : Nat) : slabOffset i + slabCapacity i = slabOffset (i + 1) := by
  simp only [slabCapacity, slabOffset]
  omega

theorem slabOffset_mono {i j : Nat} (h : i ≤ j) : slabOffset i ≤ slabOffset j := by
  induction h with
  | refl => exact le_refl _
  | step _ ih => exact ih.trans (Nat.le_add_right _ _)

/-- A class's slice ends before the slice of any later class begins. -/
theorem slabOffset_le {i j : Nat} (h : i < j) : slabOffset i + slabCapacity i ≤ slabOffset j := by
  rw [slabOffset_add_capacity]
  exact slabOffset_mono h

theorem slabCapacity_lt {i : Nat} (hi : i < numSizeClasses) : slabCapacity i < 2 ^ 15 := by
  have h : ∀ i < numSizeClasses, slabCapacity i < 2 ^ 15 := by decide +kernel
  exact h i hi

/-- Every slice holds at least one batch. -/
theorem batchSize_le_slabCapacity {i : Nat} (hi : i < numSizeClasses) :
    (sizeClass i).batchSize ≤ slabCapacity i := by
  have h : ∀ i < numSizeClasses, (sizeClass i).batchSize ≤ slabCapacity i := by decide +kernel
  exact h i hi

theorem slabOffset_le_total {i : Nat} (hi : i ≤ numSizeClasses) :
    slabOffset i ≤ slabOffset numSizeClasses :=
  slabOffset_mono hi

theorem slabOffset_numSizeClasses_lt : slabOffset numSizeClasses < 2 ^ 15 := by decide +kernel

end TieredAllocator
