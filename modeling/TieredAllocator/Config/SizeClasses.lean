import Mathlib.Tactic

/-!
# Config — the size classes

The table of `size_classes.hpp` and its two searches.  `lowerBound` is the loop both share; over
a table whose sizes increase it returns the first index whose size reaches the key
(`lowerBound_spec`), so on the classes of the table the two searches undo each other
(`sizeClassToIdx_size`).
-/

namespace TieredAllocator

structure SizeClassInfo where
  /-- bytes one object of the class can store (`uint32_t`) -/
  size : Nat
  /-- pages of a span of the class (`uint8_t`) -/
  pages : Nat
  /-- objects moved between tiers in one shot (`uint8_t`) -/
  batchSize : Nat
  /-- bytes of the class cached per CPU (`uint16_t`) -/
  byteBudget : Nat
deriving DecidableEq, Repr

def maxBatchSize : Nat := 32

/-- `{size, pages, batch_size, byte_budget}`, sorted by size; entry 0 stands for large requests. -/
def sizeClasses : List SizeClassInfo := [
  ⟨     0,  0,  0,     0⟩,
  ⟨     8,  1, 32, 64000⟩,
  ⟨    16,  1, 32, 64000⟩,
  ⟨    32,  1, 32, 64000⟩,
  ⟨    64,  1, 32, 64000⟩,
  ⟨    80,  1, 32, 32000⟩,
  ⟨    96,  1, 32, 32000⟩,
  ⟨   112,  1, 32, 32000⟩,
  ⟨   128,  1, 32, 32000⟩,
  ⟨   160,  1, 32, 32000⟩,
  ⟨   176,  1, 32, 32000⟩,
  ⟨   208,  1, 32, 32000⟩,
  ⟨   256,  1, 32, 32000⟩,
  ⟨   312,  1, 32, 16000⟩,
  ⟨   384,  1, 32, 16000⟩,
  ⟨   448,  1, 32, 16000⟩,
  ⟨   512,  1, 32, 16000⟩,
  ⟨   576,  1, 32, 16000⟩,
  ⟨   704,  1, 32, 16000⟩,
  ⟨   896,  1, 32, 16000⟩,
  ⟨  1024,  1, 32, 16000⟩,
  ⟨  1152,  2, 32,  8000⟩,
  ⟨  1408,  2, 32,  8000⟩,
  ⟨  1792,  2, 32,  8000⟩,
  ⟨  2048,  2, 32,  8000⟩,
  ⟨  2688,  2, 24,  8000⟩,
  ⟨  3456,  3, 18,  8000⟩,
  ⟨  4096,  1, 16,  8000⟩,
  ⟨  4736,  3, 13,  4000⟩,
  ⟨  6144,  3, 10,  4000⟩,
  ⟨  8192,  1,  8,  4000⟩,
  ⟨  9472,  5,  6,  4000⟩,
  ⟨ 12288,  3,  5,  4000⟩,
  ⟨ 16384,  2,  4,  4000⟩,
  ⟨ 20480,  5,  3,  2000⟩,
  ⟨ 28672,  7,  2,  2000⟩,
  ⟨ 32768,  4,  2,  2000⟩,
  ⟨ 40960,  5,  2,  2000⟩,
  ⟨ 49152,  6,  2,  2000⟩,
  ⟨ 65536,  8,  2,  2000⟩,
  ⟨ 73728,  9,  2,  2000⟩,
  ⟨ 81920, 10,  2,  2000⟩,
  ⟨ 98304, 12,  2,  2000⟩,
  ⟨114688, 14,  2,  2000⟩,
  ⟨131072, 16,  2,  2000⟩,
  ⟨155648, 19,  2,  2000⟩,
  ⟨204800, 25,  2,  2000⟩,
  ⟨262144, 32,  2,  2000⟩]

def numSizeClasses : Nat := sizeClasses.length

/-- `SizeClasses[i]`. -/
def sizeClass (i : Nat) : SizeClassInfo := sizeClasses.getD i ⟨0, 0, 0, 0⟩

/-! ### 32-bit arithmetic -/

/-- `a - b` on `uint32_t`. -/
def sub32 (a b : Nat) : Nat := (2 ^ 32 + a - b) % 2 ^ 32

/-- `a + b` on `uint32_t`. -/
def add32 (a b : Nat) : Nat := (a + b) % 2 ^ 32

/-! ### The searches -/

/-- The loop of both searches: halve `[lo, hi]` while `lo < hi`, keeping the first index whose
size is not below `n`.  The interval shrinks each time, so `hi - lo` rounds are enough. -/
def lowerBound (size : Nat → Nat) (n : Nat) : (fuel lo hi : Nat) → Nat
  | 0, lo, _ => lo
  | fuel + 1, lo, hi =>
      if lo < hi then
        let mid := lo + (hi - lo) / 2
        if size mid < n then lowerBound size n fuel (mid + 1) hi
        else lowerBound size n fuel lo mid
      else lo

/-- `round_size_class`, over any table of `num` entries. -/
def roundIn (table : Nat → SizeClassInfo) (num n : Nat) : SizeClassInfo × Nat :=
  if n = 0 then (table 1, 1)
  else
    let lo := lowerBound (fun i => (table i).size) n (num - 1) 1 (num - 1)
    if n ≤ (table lo).size then (table lo, lo) else (table 0, 0)

/-- `size_class_to_idx`, over any table of `num` entries. -/
def idxIn (table : Nat → SizeClassInfo) (num size : Nat) : Nat :=
  lowerBound (fun i => (table i).size) size (num - 1) 0 (num - 1)

def roundSizeClass (n : Nat) : SizeClassInfo × Nat := roundIn sizeClass numSizeClasses n

def sizeClassToIdx (size : Nat) : Nat := idxIn sizeClass numSizeClasses size

/-- **The search.**  Over increasing sizes the loop ends, inside `[lo, hi]`, at the first index of
`[lo, hi)` whose size reaches `n`, or at `hi`. -/
theorem lowerBound_spec (size : Nat → Nat) (n : Nat) :
    ∀ (fuel lo hi : Nat), (∀ i j, i ≤ j → j ≤ hi → size i ≤ size j) → lo ≤ hi → hi - lo ≤ fuel →
      lo ≤ lowerBound size n fuel lo hi ∧ lowerBound size n fuel lo hi ≤ hi ∧
      (∀ i, lo ≤ i → i < lowerBound size n fuel lo hi → size i < n) ∧
      (lowerBound size n fuel lo hi < hi → n ≤ size (lowerBound size n fuel lo hi))
  | 0, lo, hi, _, hle, hf => by
      obtain rfl : lo = hi := by omega
      simp only [lowerBound]
      exact ⟨le_refl _, le_refl _, fun i h₁ h₂ => by omega, fun h => by omega⟩
  | fuel + 1, lo, hi, hm, hle, hf => by
      by_cases h : lo < hi
      · have hmid : lo ≤ lo + (hi - lo) / 2 ∧ lo + (hi - lo) / 2 < hi := by omega
        rw [lowerBound, if_pos h]
        by_cases hs : size (lo + (hi - lo) / 2) < n
        · obtain ⟨h₁, h₂, h₃, h₄⟩ := lowerBound_spec size n fuel
            (lo + (hi - lo) / 2 + 1) hi hm (by omega) (by omega)
          simp only [if_pos hs]
          refine ⟨by omega, h₂, fun i hi₁ hi₂ => ?_, h₄⟩
          -- left of the midpoint the sizes are at most the midpoint's
          by_cases hi' : i ≤ lo + (hi - lo) / 2
          · exact lt_of_le_of_lt (hm i _ hi' (by omega)) hs
          · exact h₃ i (by omega) hi₂
        · obtain ⟨h₁, h₂, h₃, h₄⟩ := lowerBound_spec size n fuel lo
            (lo + (hi - lo) / 2) (fun i j hij hj => hm i j hij (by omega)) hmid.1 (by omega)
          simp only [if_neg hs]
          refine ⟨h₁, by omega, h₃, fun _ => ?_⟩
          rcases Nat.lt_or_ge (lowerBound size n fuel lo (lo + (hi - lo) / 2))
            (lo + (hi - lo) / 2) with hlt | hge
          · exact h₄ hlt
          · rw [le_antisymm h₂ hge]; omega
      · rw [lowerBound, if_neg h]
        exact ⟨le_refl _, by omega, fun i h₁ h₂ => by omega, fun h' => absurd h' h⟩

section Table

variable {table : Nat → SizeClassInfo} {num : Nat}
  (hmono : ∀ i j, i < j → j < num → (table i).size < (table j).size)

include hmono

theorem size_le_of_le {i j : Nat} (hij : i ≤ j) (hj : j < num) :
    (table i).size ≤ (table j).size := by
  rcases Nat.lt_or_ge i j with h | h
  · exact (hmono i j h hj).le
  · rw [le_antisymm hij h]

/-- A request that some class holds is rounded to the smallest class from 1 on that holds it. -/
theorem roundIn_spec (hnum : 1 < num) {n : Nat} (hn : n ≤ (table (num - 1)).size) :
    (roundIn table num n).1 = table (roundIn table num n).2 ∧
      1 ≤ (roundIn table num n).2 ∧ (roundIn table num n).2 < num ∧
      n ≤ (table (roundIn table num n).2).size ∧
      ∀ i, 1 ≤ i → i < (roundIn table num n).2 → (table i).size < n := by
  by_cases h0 : n = 0
  · simp only [roundIn, if_pos h0]
    exact ⟨trivial, le_refl _, hnum, by omega, fun i h₁ h₂ => by omega⟩
  · obtain ⟨h₁, h₂, h₃, h₄⟩ := lowerBound_spec (fun i => (table i).size) n (num - 1) 1 (num - 1)
      (fun i j hij hj => size_le_of_le hmono hij (by omega)) (by omega) (by omega)
    have hsz : n ≤ (table (lowerBound (fun i => (table i).size) n (num - 1) 1 (num - 1))).size := by
      rcases Nat.lt_or_ge (lowerBound (fun i => (table i).size) n (num - 1) 1 (num - 1))
        (num - 1) with hlt | hge
      · exact h₄ hlt
      · rw [le_antisymm h₂ hge]; exact hn
    simp only [roundIn, if_neg h0, if_pos hsz]
    exact ⟨trivial, h₁, by omega, hsz, h₃⟩

/-- A request above the largest class is sent to entry 0. -/
theorem roundIn_of_gt (hnum : 1 < num) {n : Nat} (hn : (table (num - 1)).size < n) :
    roundIn table num n = (table 0, 0) := by
  obtain ⟨-, hle, -, -⟩ := lowerBound_spec (fun i => (table i).size) n (num - 1) 1 (num - 1)
    (fun i j hij hj => size_le_of_le hmono hij (by omega)) (by omega) (by omega)
  have hsize := size_le_of_le hmono hle (by omega)
  rw [roundIn, if_neg (by omega)]
  exact if_neg (not_le.mpr (lt_of_le_of_lt hsize hn))

/-- The size of a class leads back to its index. -/
theorem idxIn_size {i : Nat} (hi : i < num) : idxIn table num (table i).size = i := by
  obtain ⟨-, h₂, h₃, h₄⟩ := lowerBound_spec (fun i => (table i).size) (table i).size
    (num - 1) 0 (num - 1)
    (fun i j hij hj => size_le_of_le hmono hij (by omega)) (by omega) (by omega)
  simp only [idxIn]
  generalize lowerBound (fun i => (table i).size) (table i).size (num - 1) 0 (num - 1) = r at *
  rcases Nat.lt_trichotomy r i with h | h | h
  · exact absurd (h₄ (by omega)) (not_le.mpr (hmono r i h hi))
  · exact h
  · exact absurd (h₃ i (Nat.zero_le _) h) (lt_irrefl _)

end Table

/-! ### The table -/

theorem sizeClass_size_lt {i j : Nat} (hij : i < j) (hj : j < numSizeClasses) :
    (sizeClass i).size < (sizeClass j).size := by
  have h : ∀ j < numSizeClasses, ∀ i < j, (sizeClass i).size < (sizeClass j).size := by
    decide +kernel
  exact h j hj i hij

/-- `SizeClasses[NUM_SIZE_CLASSES - 1].size`, the largest request a class serves. -/
def maxSize : Nat := 262144

theorem roundSizeClass_spec {n : Nat} (hn : n ≤ maxSize) :
    (roundSizeClass n).1 = sizeClass (roundSizeClass n).2 ∧
      1 ≤ (roundSizeClass n).2 ∧ (roundSizeClass n).2 < numSizeClasses ∧
      n ≤ (sizeClass (roundSizeClass n).2).size ∧
      ∀ i, 1 ≤ i → i < (roundSizeClass n).2 → (sizeClass i).size < n :=
  roundIn_spec (fun _ _ => sizeClass_size_lt) (by decide) (n := n) hn

theorem sizeClassToIdx_size {i : Nat} (hi : i < numSizeClasses) :
    sizeClassToIdx (sizeClass i).size = i :=
  idxIn_size (fun _ _ => sizeClass_size_lt) hi

theorem roundSizeClass_of_gt {n : Nat} (hn : maxSize < n) :
    roundSizeClass n = (sizeClass 0, 0) :=
  roundIn_of_gt (fun _ _ => sizeClass_size_lt) (by decide) (n := n) hn

/-- What the allocator uses of the table, class by class. -/
theorem sizeClass_ok {i : Nat} (h₁ : 1 ≤ i) (hi : i < numSizeClasses) :
    8 ≤ (sizeClass i).size ∧ (sizeClass i).size ≤ maxSize ∧
      1 ≤ (sizeClass i).pages ∧ (sizeClass i).pages ≤ 32 ∧
      1 ≤ (sizeClass i).batchSize ∧ (sizeClass i).batchSize ≤ maxBatchSize := by
  have h : ∀ i < numSizeClasses, 1 ≤ i → 8 ≤ (sizeClass i).size ∧ (sizeClass i).size ≤ maxSize ∧
      1 ≤ (sizeClass i).pages ∧ (sizeClass i).pages ≤ 32 ∧
      1 ≤ (sizeClass i).batchSize ∧ (sizeClass i).batchSize ≤ maxBatchSize := by decide +kernel
  exact h i hi h₁

end TieredAllocator
