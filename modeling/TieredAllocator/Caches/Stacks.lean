import Mathlib.Algebra.BigOperators.Pi
import TieredAllocator.Caches.Definitions

/-!
# Caches — stacks

What the slabs store: `stack m base cpu c` lists the pointers of class `c` in the slab of a CPU,
top last.  Each stack lives in a `Cell` of the region of the slabs, the count of its class and its
class's slice of the pointers, and the cells are disjoint (`Cell.disjoint`).  So `slab_pop` and
`slab_push` take from one stack and add to one stack and leave the others (`slabPop_spec`,
`slabPush_spec`); over all CPUs and classes they move one pointer out of, or into, the multiset
`objects`.
-/

namespace TieredAllocator
open Lib

theorem le_alignUp (v a : Nat) : v ≤ alignUp v a := by
  rw [alignUp]
  split
  · exact le_refl v
  · have hdiv := Nat.div_add_mod (v + a - 1) a
    have hmod := Nat.mod_lt (v + a - 1) (Nat.pos_of_ne_zero ‹¬ a = 0›)
    rw [mul_comm] at hdiv
    omega

theorem two_mul_numSizeClasses_le : 2 * numSizeClasses ≤ slabPointersOffset := by decide

theorem slabRawByteSize_le :
    slabPointersOffset + 8 * slabOffset numSizeClasses ≤ slabStrideBytes := by
  rw [mul_comm]
  exact le_alignUp slabRawByteSize slabStrideAlignment

/-- A multiset in the place of class `c`. -/
abbrev inClass (c : Nat) (ps : Multiset Nat) : Nat → Multiset Nat := Pi.single c ps

namespace Slabs

variable {m m' : Memory} {base count cpu cpu' c c' a k p : Nat}

/-! ### The fields of a slab -/

section Fields
variable {slab idx idx' v : Nat}

theorem current_setCurrent (hv : v < 2 ^ 16) : current (setCurrent m slab c v) slab c = v :=
  Memory.load_store_self_of_lt (by simpa using hv)

theorem pointer_setPointer (hv : v < 2 ^ 64) : pointer (setPointer m slab idx v) slab idx = v :=
  Memory.load_store_self_of_lt (by simpa using hv)

theorem pointer_setPointer_of_ne (h : idx' ≠ idx) :
    pointer (setPointer m slab idx v) slab idx' = pointer m slab idx' :=
  Memory.load_store_of_disjoint (by omega)

/-- The counts lie before the pointers. -/
theorem pointer_setCurrent (hc : c < numSizeClasses) :
    pointer (setCurrent m slab c v) slab idx = pointer m slab idx :=
  Memory.load_store_of_disjoint (by have := two_mul_numSizeClasses_le; omega)

theorem current_setPointer (hc : c < numSizeClasses) :
    current (setPointer m slab idx v) slab c = current m slab c :=
  Memory.load_store_of_disjoint (by have := two_mul_numSizeClasses_le; omega)

end Fields

/-! ### Stacks and their cells -/

/-- The pointers of class `c` in the slab at `slab`, top last. -/
def slabStack (m : Memory) (slab c : Nat) : List Nat :=
  (List.range (current m slab c)).map fun i => pointer m slab (slabOffset c + i)

def stack (m : Memory) (base cpu c : Nat) : List Nat := slabStack m (getSlabs base cpu) c

/-- No stack is higher than its slice. -/
def Bounded (m : Memory) (base count : Nat) : Prop :=
  ∀ cpu < count, ∀ c < numSizeClasses, current m (getSlabs base cpu) c ≤ slabCapacity c

/-- `[a, a + k)` is the count of class `c` in the slab of `cpu`, or lies in its slice. -/
def Cell (base cpu c a k : Nat) : Prop :=
  a = getSlabs base cpu + 2 * c ∧ k = 2 ∨
    getSlabs base cpu + slabPointersOffset + 8 * slabOffset c ≤ a ∧
      a + k ≤ getSlabs base cpu + slabPointersOffset + 8 * (slabOffset c + slabCapacity c)

/-- A cell lies inside its slab. -/
theorem Cell.inside (hc : c < numSizeClasses) (h : Cell base cpu c a k) :
    getSlabs base cpu ≤ a ∧ a + k ≤ getSlabs base cpu + slabStrideBytes := by
  have h₁ := slabOffset_le (show c < numSizeClasses from hc)
  have h₂ := slabRawByteSize_le
  have h₃ := two_mul_numSizeClasses_le
  rcases h with ⟨rfl, rfl⟩ | ⟨h₄, h₅⟩ <;> omega

theorem getSlabs_add_le (base : Nat) (h : cpu < cpu') :
    getSlabs base cpu + slabStrideBytes ≤ getSlabs base cpu' := by
  have := Nat.mul_le_mul_right slabStrideBytes (Nat.succ_le_of_lt h)
  rw [Nat.succ_mul] at this
  simp only [getSlabs]
  omega

/-- Cells lie inside the region of the slabs. -/
theorem Cell.region (hcpu : cpu < count) (hc : c < numSizeClasses) (h : Cell base cpu c a k) :
    base ≤ a ∧ a + k ≤ base + count * slabStrideBytes := by
  obtain ⟨h₁, h₂⟩ := h.inside hc
  have := getSlabs_add_le base hcpu
  simp only [getSlabs] at *
  omega

/-- The count of a class lies inside the region. -/
theorem current_region (base : Nat) (hcpu : cpu < count) (hc : c < numSizeClasses) :
    base ≤ getSlabs base cpu + 2 * c ∧
      getSlabs base cpu + 2 * c + 2 ≤ base + count * slabStrideBytes :=
  Cell.region hcpu hc (.inl ⟨rfl, rfl⟩)

/-- **Cells do not overlap.** -/
theorem Cell.disjoint {b l : Nat} (hc : c < numSizeClasses) (hc' : c' < numSizeClasses)
    (hne : cpu ≠ cpu' ∨ c ≠ c') (h : Cell base cpu c a k) (h' : Cell base cpu' c' b l) :
    a + k ≤ b ∨ b + l ≤ a := by
  by_cases hcpu : cpu = cpu'
  · subst hcpu
    have h₃ := two_mul_numSizeClasses_le
    have hcc : c ≠ c' := hne.resolve_left fun h => h rfl
    have h₁ : c < c' → slabOffset c + slabCapacity c ≤ slabOffset c' := slabOffset_le
    have h₂ : c' < c → slabOffset c' + slabCapacity c' ≤ slabOffset c := slabOffset_le
    rcases h with ⟨rfl, rfl⟩ | ⟨h₄, h₅⟩ <;> rcases h' with ⟨rfl, rfl⟩ | ⟨h₆, h₇⟩ <;> omega
  · obtain ⟨h₁, h₂⟩ := h.inside hc
    obtain ⟨h₃, h₄⟩ := h'.inside hc'
    rcases Nat.lt_or_gt_of_ne hcpu with hlt | hlt
    · have := getSlabs_add_le base hlt
      exact .inl (by omega)
    · have := getSlabs_add_le base hlt
      exact .inr (by omega)

/-! ### What a stack depends on -/

/-- A stack within its bounds reads its cell only. -/
theorem stack_congr (hle : current m (getSlabs base cpu) c ≤ slabCapacity c)
    (h : ∀ a k, Cell base cpu c a k → m'.load a k = m.load a k) :
    stack m' base cpu c = stack m base cpu c ∧
      current m' (getSlabs base cpu) c = current m (getSlabs base cpu) c := by
  have hcur : current m' (getSlabs base cpu) c = current m (getSlabs base cpu) c :=
    h _ _ (.inl ⟨rfl, rfl⟩)
  refine ⟨?_, hcur⟩
  rw [stack, stack, slabStack, slabStack, hcur]
  refine List.map_congr_left fun i hi => h _ _ (.inr ?_)
  have := List.mem_range.mp hi
  omega

/-- Stores into one cell leave the stacks of the others. -/
theorem stack_of_wrote (hc : c < numSizeClasses) (hc' : c' < numSizeClasses)
    (hne : cpu ≠ cpu' ∨ c ≠ c') (hw : Memory.Wrote (Cell base cpu c) m m')
    (hle : current m (getSlabs base cpu') c' ≤ slabCapacity c') :
    stack m' base cpu' c' = stack m base cpu' c' ∧
      current m' (getSlabs base cpu') c' = current m (getSlabs base cpu') c' :=
  stack_congr hle fun _ _ h' => hw.load_eq fun _ _ h => (h.disjoint hc hc' hne h').symm

/-! ### The operations on one stack -/

theorem stack_length : (stack m base cpu c).length = current m (getSlabs base cpu) c := by
  simp [stack, slabStack]

/-- `fallback_allocate` takes the top. -/
theorem fallbackAllocate_spec (hc : c < numSizeClasses)
    (hle : current m (getSlabs base cpu) c ≤ slabCapacity c) :
    (stack m base cpu c = [] ∧ fallbackAllocate m (getSlabs base cpu) c = (0, m)) ∨
      ∃ l p m', stack m base cpu c = l ++ [p] ∧
        fallbackAllocate m (getSlabs base cpu) c = (p, m') ∧ stack m' base cpu c = l ∧
        current m' (getSlabs base cpu) c + 1 = current m (getSlabs base cpu) c ∧
        Memory.Wrote (Cell base cpu c) m m' := by
  rcases Nat.eq_zero_or_pos (current m (getSlabs base cpu) c) with h0 | hpos
  · refine .inl ⟨?_, ?_⟩
    · rw [stack, slabStack, h0]; rfl
    · simp [fallbackAllocate, h0]
  · obtain ⟨n, hn⟩ : ∃ n, current m (getSlabs base cpu) c = n + 1 :=
      ⟨_, (Nat.succ_pred_eq_of_pos hpos).symm⟩
    have hcap := slabCapacity_lt hc
    have hcur : current (setCurrent m (getSlabs base cpu) c n) (getSlabs base cpu) c = n :=
      current_setCurrent (by omega)
    refine .inr ⟨(List.range n).map fun i => pointer m (getSlabs base cpu) (slabOffset c + i),
      pointer m (getSlabs base cpu) (slabOffset c + n),
      setCurrent m (getSlabs base cpu) c n, ?_, ?_, ?_, by rw [hcur, hn],
      Memory.Wrote.store m n (.inl ⟨rfl, rfl⟩)⟩
    · rw [stack, slabStack, hn, List.range_succ, List.map_append]
      rfl
    · simp only [fallbackAllocate, hn, if_pos (Nat.succ_pos n)]
      rfl
    · rw [stack, slabStack, hcur]
      exact List.map_congr_left fun i _ => pointer_setCurrent hc

/-- `fallback_deallocate` adds to the top. -/
theorem fallbackDeallocate_spec (hc : c < numSizeClasses) (hp : p < 2 ^ 64)
    (hle : current m (getSlabs base cpu) c ≤ slabCapacity c) :
    ((stack m base cpu c).length = slabCapacity c ∧
        fallbackDeallocate m (getSlabs base cpu) p c = (false, m)) ∨
      ∃ m', fallbackDeallocate m (getSlabs base cpu) p c = (true, m') ∧
        stack m' base cpu c = stack m base cpu c ++ [p] ∧
        current m' (getSlabs base cpu) c = current m (getSlabs base cpu) c + 1 ∧
        current m' (getSlabs base cpu) c ≤ slabCapacity c ∧
        Memory.Wrote (Cell base cpu c) m m' := by
  by_cases hlt : current m (getSlabs base cpu) c < slabCapacity c
  · have hcap := slabCapacity_lt hc
    let m₁ := setPointer m (getSlabs base cpu) (slabOffset c + current m (getSlabs base cpu) c) p
    let m₂ := setCurrent m₁ (getSlabs base cpu) c (current m (getSlabs base cpu) c + 1)
    have hcur : current m₂ (getSlabs base cpu) c = current m (getSlabs base cpu) c + 1 :=
      current_setCurrent (by omega)
    refine .inr ⟨m₂, ?_, ?_, hcur, hcur.le.trans hlt, ?_⟩
    · simp only [fallbackDeallocate, if_pos hlt]
      rfl
    · have hkeep : ∀ i ∈ List.range (current m (getSlabs base cpu) c),
          pointer m₂ (getSlabs base cpu) (slabOffset c + i) =
            pointer m (getSlabs base cpu) (slabOffset c + i) := fun i hi => by
        have hne := (List.mem_range.mp hi).ne
        exact (pointer_setCurrent hc).trans (pointer_setPointer_of_ne (by omega))
      have htop : pointer m₂ (getSlabs base cpu) (slabOffset c + current m (getSlabs base cpu) c) =
          p := (pointer_setCurrent hc).trans (pointer_setPointer hp)
      rw [stack, slabStack, hcur, List.range_succ, List.map_append, List.map_singleton, htop,
        List.map_congr_left hkeep]
      rfl
    · have hslot : Cell base cpu c (getSlabs base cpu + slabPointersOffset +
          8 * (slabOffset c + current m (getSlabs base cpu) c)) 8 := .inr (by omega)
      exact (Memory.Wrote.store m p hslot).trans (Memory.Wrote.store m₁ _ (.inl ⟨rfl, rfl⟩))
  · refine .inl ⟨by rw [stack_length]; omega, ?_⟩
    simp only [fallbackDeallocate, if_neg hlt]

/-! ### All slabs -/

/-- The pointers of each class in all slabs. -/
def objects (m : Memory) (base count : Nat) (c : Nat) : Multiset Nat :=
  if c < numSizeClasses then ∑ cpu ∈ Finset.range count, (stack m base cpu c : Multiset Nat) else 0

theorem objects_congr (hb : Bounded m base count)
    (h : ∀ a, base ≤ a → a < base + count * slabStrideBytes → m'.byte a = m.byte a) :
    Bounded m' base count ∧ objects m' base count = objects m base count := by
  have hstack : ∀ cpu < count, ∀ c < numSizeClasses, stack m' base cpu c = stack m base cpu c ∧
      current m' (getSlabs base cpu) c = current m (getSlabs base cpu) c := by
    intro cpu hcpu c hc
    refine stack_congr (hb cpu hcpu c hc) fun a k hcell => Memory.load_congr k a fun x h₁ h₂ => ?_
    obtain ⟨h₃, h₄⟩ := hcell.region hcpu hc
    exact h x (by omega) (by omega)
  refine ⟨fun cpu hcpu c hc => ?_, funext fun c => ?_⟩
  · rw [(hstack cpu hcpu c hc).2]
    exact hb cpu hcpu c hc
  · rw [objects, objects]
    split
    · exact Finset.sum_congr rfl fun cpu hcpu => by
        rw [(hstack cpu (Finset.mem_range.mp hcpu) c ‹_›).1]
    · rfl

/-- The stack of one CPU and class changes. -/
theorem objects_of_wrote (hb : Bounded m base count) (hcpu : cpu < count)
    (hc : c < numSizeClasses) (hw : Memory.Wrote (Cell base cpu c) m m')
    (hle : current m' (getSlabs base cpu) c ≤ slabCapacity c) :
    Bounded m' base count ∧
      objects m' base count + inClass c (stack m base cpu c) =
        objects m base count + inClass c (stack m' base cpu c) := by
  have hother : ∀ cpu' < count, ∀ c' < numSizeClasses, (cpu ≠ cpu' ∨ c ≠ c') →
      stack m' base cpu' c' = stack m base cpu' c' ∧
        current m' (getSlabs base cpu') c' = current m (getSlabs base cpu') c' :=
    fun cpu' hcpu' c' hc' hne => stack_of_wrote hc hc' hne hw (hb cpu' hcpu' c' hc')
  refine ⟨fun cpu' hcpu' c' hc' => ?_, funext fun c' => ?_⟩
  · by_cases hne : cpu ≠ cpu' ∨ c ≠ c'
    · rw [(hother cpu' hcpu' c' hc' hne).2]
      exact hb cpu' hcpu' c' hc'
    · simp only [not_or, ne_eq, not_not] at hne
      obtain ⟨rfl, rfl⟩ := hne
      exact hle
  · simp only [Pi.add_apply]
    by_cases hcc : c = c'
    · subst hcc
      have hmem := Finset.mem_range.mpr hcpu
      have hrest : ∑ x ∈ (Finset.range count).erase cpu, (stack m' base x c : Multiset Nat) =
          ∑ x ∈ (Finset.range count).erase cpu, (stack m base x c : Multiset Nat) :=
        Finset.sum_congr rfl fun x hx => by
          obtain ⟨hx₁, hx₂⟩ := Finset.mem_erase.mp hx
          rw [(hother x (Finset.mem_range.mp hx₂) c hc (.inl hx₁.symm)).1]
      simp only [objects, if_pos hc, inClass, Pi.single_eq_same]
      rw [← Finset.add_sum_erase _ _ hmem, ← Finset.add_sum_erase _ _ hmem, hrest]
      abel
    · simp only [inClass, Pi.single_eq_of_ne (Ne.symm hcc), add_zero, objects]
      split
      · exact Finset.sum_congr rfl fun x hx => by
          rw [(hother x (Finset.mem_range.mp hx) c' ‹_› (.inr hcc)).1]
      · rfl

/-- **`slab_pop`** on any CPU takes one pointer out of the slabs, the top of the CPU's stack, or
returns 0 and changes nothing. -/
theorem slabPop_spec (hb : Bounded m base count) (hc : c < numSizeClasses) (cpu : Nat) :
    slabPop m base count cpu c = (0, m) ∨
      ∃ p m', slabPop m base count cpu c = (p, m') ∧ cpu < count ∧ Bounded m' base count ∧
        objects m base count = inClass c {p} + objects m' base count ∧
        Memory.Wrote (Cell base cpu c) m m' := by
  by_cases hcpu : count ≤ cpu
  · exact .inl (by simp [slabPop, getSlabsChecked, hcpu])
  · have hlt := not_le.mp hcpu
    have heq : slabPop m base count cpu c = fallbackAllocate m (getSlabs base cpu) c := by
      simp only [slabPop, getSlabsChecked, if_neg hcpu]
    have hle := hb cpu hlt c hc
    rcases fallbackAllocate_spec hc hle with ⟨-, h⟩ | ⟨l, p, m', hst, h, hst', hcur, hw⟩
    · exact .inl (heq.trans h)
    · obtain ⟨hb', hobj⟩ := objects_of_wrote hb hlt hc hw (by omega)
      refine .inr ⟨p, m', heq.trans h, hlt, hb', ?_, hw⟩
      have hsplit : inClass c (stack m base cpu c) = inClass c {p} + inClass c l := by
        rw [inClass, inClass, inClass, ← Pi.single_add, hst, ← Multiset.coe_add, add_comm]
        rfl
      rw [hst', hsplit] at hobj
      refine add_right_cancel (b := inClass c (l : Multiset Nat)) ?_
      rw [← hobj]
      abel

/-- **`slab_push`** on any CPU adds the pointer to the slabs, or returns false and changes
nothing. -/
theorem slabPush_spec (hb : Bounded m base count) (hc : c < numSizeClasses) (hp : p < 2 ^ 64)
    (cpu : Nat) :
    slabPush m base count cpu c p = (false, m) ∨
      ∃ m', slabPush m base count cpu c p = (true, m') ∧ cpu < count ∧ Bounded m' base count ∧
        objects m' base count = inClass c {p} + objects m base count ∧
        Memory.Wrote (Cell base cpu c) m m' := by
  by_cases hcpu : count ≤ cpu
  · exact .inl (by simp [slabPush, getSlabsChecked, hcpu])
  · have hlt := not_le.mp hcpu
    have heq : slabPush m base count cpu c p = fallbackDeallocate m (getSlabs base cpu) p c := by
      simp only [slabPush, getSlabsChecked, if_neg hcpu]
    rcases fallbackDeallocate_spec hc hp (hb cpu hlt c hc) with
      ⟨-, h⟩ | ⟨m', h, hst', -, hle', hw⟩
    · exact .inl (heq.trans h)
    · obtain ⟨hb', hobj⟩ := objects_of_wrote hb hlt hc hw hle'
      refine .inr ⟨m', heq.trans h, hlt, hb', ?_, hw⟩
      have hsplit : inClass c (stack m' base cpu c) =
          inClass c {p} + inClass c (stack m base cpu c) := by
        rw [inClass, inClass, inClass, ← Pi.single_add, hst', ← Multiset.coe_add, add_comm]
        rfl
      rw [hsplit] at hobj
      refine add_right_cancel (b := inClass c (stack m base cpu c : Multiset Nat)) ?_
      rw [hobj]
      abel

end Slabs

/-! ### The transfer cache -/

namespace TransferCache

theorem insertRange_spec (tc : TransferCache) (batch : List Nat) :
    (tc.insertRange batch).1 ≤ batch.length ∧
      ((tc.insertRange batch).2.slots : Multiset Nat) =
        (batch.take (tc.insertRange batch).1 : Multiset Nat) + tc.slots := by
  refine ⟨Nat.min_le_left _ _, ?_⟩
  rw [insertRange, Multiset.coe_add]
  exact Multiset.coe_eq_coe.mpr List.perm_append_comm

theorem removeRange_spec (tc : TransferCache) (n : Nat) :
    (tc.removeRange n).1.length ≤ n ∧
      (tc.slots : Multiset Nat) = ((tc.removeRange n).1 : Multiset Nat) +
        (tc.removeRange n).2.slots := by
  constructor
  · simp only [removeRange, List.length_drop]
    omega
  · rw [removeRange, Multiset.coe_add]
    refine Multiset.coe_eq_coe.mpr ?_
    conv_lhs => rw [← List.take_append_drop (tc.slots.length - min n tc.slots.length) tc.slots]
    exact List.perm_append_comm

/-- A cache that has nothing to give is not changed. -/
theorem removeRange_eq_nil {tc : TransferCache} {n : Nat} (hn : 1 ≤ n)
    (h : (tc.removeRange n).1 = []) : tc.slots = [] ∧ (tc.removeRange n).2 = tc := by
  obtain ⟨slots, hb⟩ := tc
  simp only [removeRange, List.drop_eq_nil_iff] at h
  have hnil : slots = [] := List.length_eq_zero_iff.mp (by omega)
  subst hnil
  exact ⟨rfl, by simp [removeRange]⟩

end TransferCache

end TieredAllocator
