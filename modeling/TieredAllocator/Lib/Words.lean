import TieredAllocator.Lib.Memory

/-!
# Library — arrays of words

`Memory.words m a n` is the array of `n` 8-byte words at `a`, and `copy` is `memcpy`: it moves such
arrays (`words_copy`).  An array depends on its bytes only (`words_congr`), and it falls into two
arrays side by side (`words_append`).
-/

namespace TieredAllocator.Lib.Memory

variable {m m' : Memory} {a b k n i v : Nat}

/-- The `n` words of 8 bytes from `a`. -/
def words (m : Memory) (a n : Nat) : List Nat := (List.range n).map fun i => m.load (a + 8 * i) 8

/-- `memcpy(a, b, k)` of disjoint ranges. -/
def copy (m : Memory) (a b k : Nat) : Memory where
  byte x := if a ≤ x ∧ x < a + k then m.byte (b + (x - a)) else m.byte x
  log := (a, k) :: m.log

@[simp] theorem words_length (m : Memory) (a n : Nat) : (m.words a n).length = n := by
  simp [words]

theorem words_congr (h : ∀ x, a ≤ x → x < a + 8 * n → m'.byte x = m.byte x) :
    m'.words a n = m.words a n := by
  refine List.map_congr_left fun i hi => load_congr 8 _ fun x h₁ h₂ => h x ?_ ?_
  · omega
  · have := List.mem_range.mp hi
    omega

/-- Two arrays side by side. -/
theorem words_append (m : Memory) (a k n : Nat) :
    m.words a (k + n) = m.words a k ++ m.words (a + 8 * k) n := by
  rw [words, List.range_add, List.map_append, List.map_map]
  refine congrArg _ (List.map_congr_left fun i _ => ?_)
  show m.load (a + 8 * (k + i)) 8 = m.load (a + 8 * k + 8 * i) 8
  rw [Nat.mul_add, Nat.add_assoc]

theorem words_take (h : k ≤ n) : (m.words a n).take k = m.words a k := by
  rw [← Nat.add_sub_cancel' h, words_append, List.take_left' (words_length m a k)]

theorem words_drop (h : k ≤ n) : (m.words a n).drop k = m.words (a + 8 * k) (n - k) := by
  rw [← Nat.add_sub_cancel' h, words_append, List.drop_left' (words_length m a k),
    Nat.add_sub_cancel_left]

theorem copy_byte_of_not_mem {x : Nat} (h : ¬ (a ≤ x ∧ x < a + k)) :
    (m.copy a b k).byte x = m.byte x := if_neg h

theorem Wrote.copy {P : Nat → Nat → Prop} (m : Memory) (b : Nat) (h : P a k) :
    Wrote P m (m.copy a b k) :=
  ⟨[(a, k)], rfl, by simpa using h, fun x hx => copy_byte_of_not_mem (hx (a, k) (by simp))⟩

/-- The array that was copied. -/
theorem words_copy (m : Memory) (a b n : Nat) : (m.copy a b (8 * n)).words a n = m.words b n := by
  refine List.map_congr_left fun i hi => ?_
  have hi := List.mem_range.mp hi
  -- byte by byte
  have hload : ∀ (k o : Nat), o + k ≤ 8 * n →
      (m.copy a b (8 * n)).load (a + o) k = m.load (b + o) k := by
    intro k
    induction k with
    | zero => exact fun _ _ => rfl
    | succ k ih =>
        intro o ho
        have hbyte : (m.copy a b (8 * n)).byte (a + o) = m.byte (b + o) := by
          simp only [copy]
          rw [if_pos (by omega), Nat.add_sub_cancel_left]
        simp only [load]
        rw [hbyte, Nat.add_assoc a o 1, ih (o + 1) (by omega), Nat.add_assoc b o 1]
  exact hload 8 (8 * i) (by omega)

end TieredAllocator.Lib.Memory
