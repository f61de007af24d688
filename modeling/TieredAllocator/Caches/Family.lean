import TieredAllocator.Lib.Runs
import TieredAllocator.Caches.Stacks

/-!
# Caches — the slabs as a family of stacks

What the slab region is for: one bounded stack for each CPU and each size class.  `SlabOp.onLists`
states this on a family of lists, and the code refines it: from zeroed memory, whatever the pushes
and pops, the answers are those of the lists, an operation leaves the stacks of the other CPUs and
classes, and all its accesses lie in the mapped region (`Slabs.family_of_stacks`).
-/

namespace TieredAllocator
open Lib

/-! ### Bounded stacks -/

/-- Onto a list of `cap` elements at most, the top last. -/
def pushBounded (cap : Nat) (l : List Nat) (p : Nat) : Bool × List Nat :=
  if l.length < cap then (true, l ++ [p]) else (false, l)

/-- The top, 0 if there is none, and the rest. -/
def popTop (l : List Nat) : Nat × List Nat := (l.getLastD 0, l.dropLast)

/-! ### The operations -/

inductive SlabOp where
  | pop (cpu sc : Nat)
  | push (cpu sc ptr : Nat)

inductive SlabAnswer where
  | popped (ptr : Nat)
  | pushed (ok : Bool)
deriving DecidableEq

namespace SlabOp

def cpu : SlabOp → Nat
  | .pop cpu _ | .push cpu _ _ => cpu

def sc : SlabOp → Nat
  | .pop _ sc | .push _ sc _ => sc

/-- On a class of the table, with a pointer of 64 bits. -/
def Valid : SlabOp → Prop
  | .pop _ sc => 1 ≤ sc ∧ sc < numSizeClasses
  | .push _ sc ptr => 1 ≤ sc ∧ sc < numSizeClasses ∧ ptr < 2 ^ 64

instance : (o : SlabOp) → Decidable o.Valid
  | .pop _ sc => inferInstanceAs (Decidable (1 ≤ sc ∧ sc < numSizeClasses))
  | .push _ sc ptr => inferInstanceAs (Decidable (1 ≤ sc ∧ sc < numSizeClasses ∧ ptr < 2 ^ 64))

/-- The answer of an operation that does nothing. -/
def failure : SlabOp → SlabAnswer
  | .pop _ _ => .popped 0
  | .push _ _ _ => .pushed false

/-- `slab_pop` and `slab_push` on the slabs at `base`. -/
def apply (base count : Nat) (m : Memory) : SlabOp → SlabAnswer × Memory
  | .pop cpu sc =>
      let r := Slabs.slabPop m base count cpu sc
      (.popped r.1, r.2)
  | .push cpu sc ptr =>
      let r := Slabs.slabPush m base count cpu sc ptr
      (.pushed r.1, r.2)

/-- The words `fallback_allocate` and `fallback_deallocate` load or store in the slab at `slab`,
address and length: the count, and the slot if they get to it. -/
def accessesIn (m : Memory) (slab : Nat) : SlabOp → List (Nat × Nat)
  | .pop _ sc =>
      let cur := Slabs.current m slab sc
      if 0 < cur then
        [(slab + 2 * sc, 2), (slab + slabPointersOffset + 8 * (slabOffset sc + cur - 1), 8)]
      else [(slab + 2 * sc, 2)]
  | .push _ sc _ =>
      let cur := Slabs.current m slab sc
      if cur < slabCapacity sc then
        [(slab + 2 * sc, 2), (slab + slabPointersOffset + 8 * (slabOffset sc + cur), 8)]
      else [(slab + 2 * sc, 2)]

def accesses (base count : Nat) (m : Memory) (o : SlabOp) : List (Nat × Nat) :=
  if count ≤ o.cpu then [] else o.accessesIn m (Slabs.getSlabs base o.cpu)

/-- The same operation on a family of lists, one per CPU and class. -/
def onLists (count : Nat) (f : Nat → Nat → List Nat) (o : SlabOp) :
    SlabAnswer × (Nat → Nat → List Nat) :=
  if count ≤ o.cpu then (o.failure, f)
  else
    let set := fun l => Function.update f o.cpu (Function.update (f o.cpu) o.sc l)
    match o with
    | .pop cpu sc => (.popped (popTop (f cpu sc)).1, set (popTop (f cpu sc)).2)
    | .push cpu sc ptr =>
        let r := pushBounded (slabCapacity sc) (f cpu sc) ptr
        (.pushed r.1, set r.2)

theorem Valid.sc_lt {o : SlabOp} (ho : o.Valid) : o.sc < numSizeClasses := by
  cases o with
  | pop cpu sc => exact ho.2
  | push cpu sc ptr => exact ho.2.1

end SlabOp

namespace Slabs

variable {m m₂ : Memory} {base count : Nat} {f : Nat → Nat → List Nat} {o : SlabOp}

/-- Each stack is within its bounds, and is the list of the family. -/
def Represents (base count : Nat) (m : Memory) (f : Nat → Nat → List Nat) : Prop :=
  ∀ cpu < count, ∀ c < numSizeClasses,
    current m (getSlabs base cpu) c ≤ slabCapacity c ∧ stack m base cpu c = f cpu c

/-- Zeroed slabs are empty stacks. -/
theorem represents_zero
    (hzero : ∀ a, base ≤ a → a < base + count * slabStrideBytes → m.byte a = 0) :
    Represents base count m fun _ _ => [] := by
  intro cpu hcpu c hc
  have h0 : current m (getSlabs base cpu) c = 0 := by
    refine Memory.load_eq_zero _ _ fun a h₁ h₂ => ?_
    obtain ⟨h₃, h₄⟩ := current_region base hcpu hc
    exact hzero a (h₃.trans h₁) (h₂.trans_le h₄)
  exact ⟨by omega, by rw [stack, slabStack, h0]; rfl⟩

/-- A change of one stack. -/
theorem Represents.update {m' : Memory} {cpu c : Nat} {l : List Nat}
    (h : Represents base count m f) (hcpu : cpu < count) (hc : c < numSizeClasses)
    (hw : Memory.Wrote (Cell base cpu c) m m')
    (hle : current m' (getSlabs base cpu) c ≤ slabCapacity c) (hl : stack m' base cpu c = l) :
    Represents base count m' (Function.update f cpu (Function.update (f cpu) c l)) := by
  intro cpu' hcpu' c' hc'
  by_cases heq : cpu = cpu' ∧ c = c'
  · obtain ⟨rfl, rfl⟩ := heq
    exact ⟨hle, by simp [hl]⟩
  · have hne : cpu ≠ cpu' ∨ c ≠ c' := not_and_or.mp heq
    obtain ⟨hle', hst⟩ := h cpu' hcpu' c' hc'
    obtain ⟨h₁, h₂⟩ := stack_of_wrote hc hc' hne hw hle'
    refine ⟨h₂ ▸ hle', h₁.trans (hst.trans ?_)⟩
    by_cases hcc : cpu' = cpu
    · subst hcc
      rw [Function.update_self, Function.update_of_ne (Ne.symm (hne.resolve_left fun h => h rfl))]
    · rw [Function.update_of_ne hcc]

theorem Represents.congr {m' : Memory} (h : Represents base count m f)
    (hm : ∀ x, m'.byte x = m.byte x) : Represents base count m' f := fun cpu hcpu c hc => by
  obtain ⟨hle, hst⟩ := h cpu hcpu c hc
  obtain ⟨hst', hcur⟩ := stack_congr hle fun a k _ => Memory.load_congr k a fun x _ _ => hm x
  exact ⟨hcur ▸ hle, hst'.trans hst⟩

/-- The slot above the top of a stack holds nothing yet. -/
theorem Represents.store_slot {cpu c p : Nat} (h : Represents base count m f) (hcpu : cpu < count)
    (hc : c < numSizeClasses) (hlt : current m (getSlabs base cpu) c < slabCapacity c) :
    Represents base count
      (setPointer m (getSlabs base cpu) (slabOffset c + current m (getSlabs base cpu) c) p) f := by
  obtain ⟨hle, hst⟩ := h cpu hcpu c hc
  set m' := setPointer m (getSlabs base cpu) (slabOffset c + current m (getSlabs base cpu) c) p
  have hcur : current m' (getSlabs base cpu) c = current m (getSlabs base cpu) c :=
    current_setPointer hc
  have hstack : stack m' base cpu c = f cpu c := by
    rw [← hst, stack, slabStack, hcur]
    refine List.map_congr_left fun i hi => pointer_setPointer_of_ne ?_
    have := List.mem_range.mp hi
    omega
  have hw : Memory.Wrote (Cell base cpu c) m m' := Memory.Wrote.store m p (.inr (by omega))
  simpa only [Function.update_eq_self] using h.update hcpu hc hw (hcur ▸ hle) hstack

/-- On a CPU without a slab nothing happens. -/
theorem apply_of_le (hcpu : count ≤ o.cpu) : o.apply base count m = (o.failure, m) := by
  cases o with
  | pop cpu sc =>
      simp [SlabOp.apply, slabPop, getSlabsChecked, SlabOp.failure, show count ≤ cpu from hcpu]
  | push cpu sc ptr =>
      simp [SlabOp.apply, slabPush, getSlabsChecked, SlabOp.failure, show count ≤ cpu from hcpu]

/-- **One operation** answers as on the lists, and stores into its own cell. -/
theorem apply_spec (h : Represents base count m f) (ho : o.Valid) :
    (o.apply base count m).1 = (o.onLists count f).1 ∧
      Represents base count (o.apply base count m).2 (o.onLists count f).2 ∧
      Memory.Wrote (Cell base o.cpu o.sc) m (o.apply base count m).2 := by
  by_cases hcpu : count ≤ o.cpu
  · rw [apply_of_le hcpu, SlabOp.onLists, if_pos hcpu]
    exact ⟨rfl, h, Memory.Wrote.refl _ _⟩
  have hlt := not_le.mp hcpu
  have hc := ho.sc_lt
  obtain ⟨hle, hst⟩ := h o.cpu hlt o.sc hc
  rw [SlabOp.onLists, if_neg hcpu]
  cases o with
  | pop cpu sc =>
      have heq : slabPop m base count cpu sc = fallbackAllocate m (getSlabs base cpu) sc := by
        simp only [slabPop, getSlabsChecked, if_neg (show ¬ count ≤ cpu from hcpu)]
      simp only [SlabOp.apply, heq, SlabOp.cpu, SlabOp.sc] at *
      rcases fallbackAllocate_spec hc hle with ⟨hnil, hres⟩ | ⟨l, p, m', hl, hres, hl', hcur, hw⟩
      · have hf : f cpu sc = [] := hst.symm.trans hnil
        rw [hres]
        exact ⟨by simp [popTop, hf], h.update hlt hc (Memory.Wrote.refl _ _) hle
          (by simp [popTop, hf, hnil]), Memory.Wrote.refl _ _⟩
      · have hf : f cpu sc = l ++ [p] := hst.symm.trans hl
        rw [hres]
        exact ⟨by simp [popTop, hf],
          h.update hlt hc hw (Nat.le_of_succ_le (hcur.le.trans hle)) (by simp [popTop, hf, hl']),
          hw⟩
  | push cpu sc ptr =>
      have heq : slabPush m base count cpu sc ptr =
          fallbackDeallocate m (getSlabs base cpu) ptr sc := by
        simp only [slabPush, getSlabsChecked, if_neg (show ¬ count ≤ cpu from hcpu)]
      simp only [SlabOp.apply, heq, SlabOp.cpu, SlabOp.sc] at *
      rcases fallbackDeallocate_spec hc ho.2.2 hle with
        ⟨hfull, hres⟩ | ⟨m', hres, hl', hcur, hle', hw⟩
      · have hf : ¬ (f cpu sc).length < slabCapacity sc := by
          rw [← hst, hfull]
          exact lt_irrefl _
        rw [hres]
        exact ⟨by simp [pushBounded, hf], h.update hlt hc (Memory.Wrote.refl _ _) hle
          (by simp [pushBounded, hf, hst]), Memory.Wrote.refl _ _⟩
      · have hf : (f cpu sc).length < slabCapacity sc := by
          rw [← hst, stack_length]
          omega
        rw [hres]
        exact ⟨by simp [pushBounded, hf], h.update hlt hc hw hle'
          (by simp [pushBounded, hf, hst, hl']), hw⟩

/-! ### Accesses -/

/-- The accesses are cells of the operation's own stack. -/
theorem cell_of_access (h : Represents base count m f) (ho : o.Valid) {w : Nat × Nat}
    (hw : w ∈ o.accesses base count m) : o.cpu < count ∧ Cell base o.cpu o.sc w.1 w.2 := by
  by_cases hcpu : count ≤ o.cpu
  · rw [SlabOp.accesses, if_pos hcpu] at hw
    cases hw
  have hlt := not_le.mp hcpu
  obtain ⟨hle, -⟩ := h o.cpu hlt o.sc ho.sc_lt
  refine ⟨hlt, ?_⟩
  rw [SlabOp.accesses, if_neg hcpu] at hw
  have hcount : Cell base o.cpu o.sc (getSlabs base o.cpu + 2 * o.sc) 2 := .inl ⟨rfl, rfl⟩
  cases o with
  | pop cpu sc =>
      simp only [SlabOp.cpu, SlabOp.sc] at *
      simp only [SlabOp.accessesIn] at hw
      by_cases hpos : 0 < current m (getSlabs base cpu) sc
      · simp only [if_pos hpos, List.mem_cons, List.not_mem_nil, or_false] at hw
        rcases hw with rfl | rfl
        · exact hcount
        · exact .inr ⟨by dsimp only; omega, by dsimp only; omega⟩
      · rw [if_neg hpos, List.mem_singleton] at hw
        exact hw ▸ hcount
  | push cpu sc ptr =>
      simp only [SlabOp.cpu, SlabOp.sc] at *
      simp only [SlabOp.accessesIn] at hw
      by_cases hroom : current m (getSlabs base cpu) sc < slabCapacity sc
      · simp only [if_pos hroom, List.mem_cons, List.not_mem_nil, or_false] at hw
        rcases hw with rfl | rfl
        · exact hcount
        · exact .inr ⟨by dsimp only; omega, by dsimp only; omega⟩
      · rw [if_neg hroom, List.mem_singleton] at hw
        exact hw ▸ hcount

/-- The stores are among the accesses. -/
theorem wrote_accesses (o : SlabOp) :
    Memory.Wrote (fun a k => (a, k) ∈ o.accesses base count m) m (o.apply base count m).2 := by
  by_cases hcpu : count ≤ o.cpu
  · rw [apply_of_le hcpu]
    exact Memory.Wrote.refl _ _
  rw [SlabOp.accesses, if_neg hcpu]
  cases o with
  | pop cpu sc =>
      simp only [SlabOp.cpu] at *
      simp only [SlabOp.apply, slabPop, getSlabsChecked, if_neg hcpu, fallbackAllocate,
        SlabOp.accessesIn]
      by_cases hpos : 0 < current m (getSlabs base cpu) sc
      · rw [if_pos hpos, if_pos hpos]
        exact Memory.Wrote.store m _ List.mem_cons_self
      · rw [if_neg hpos, if_neg hpos]
        exact Memory.Wrote.refl _ _
  | push cpu sc ptr =>
      simp only [SlabOp.cpu] at *
      simp only [SlabOp.apply, slabPush, getSlabsChecked, if_neg hcpu, fallbackDeallocate,
        SlabOp.accessesIn]
      by_cases hlt : current m (getSlabs base cpu) sc < slabCapacity sc
      · rw [if_pos hlt, if_pos hlt]
        exact (Memory.Wrote.store m _ (by simp)).trans (Memory.Wrote.store _ _ List.mem_cons_self)
      · rw [if_neg hlt, if_neg hlt]
        exact Memory.Wrote.refl _ _

/-- The answer depends on the accesses only. -/
theorem apply_congr (h : ∀ w ∈ o.accesses base count m, m₂.load w.1 w.2 = m.load w.1 w.2) :
    (o.apply base count m₂).1 = (o.apply base count m).1 := by
  by_cases hcpu : count ≤ o.cpu
  · rw [apply_of_le hcpu, apply_of_le hcpu]
  rw [SlabOp.accesses, if_neg hcpu] at h
  cases o with
  | pop cpu sc =>
      simp only [SlabOp.cpu] at *
      simp only [SlabOp.accessesIn] at h
      simp only [SlabOp.apply, slabPop, getSlabsChecked, if_neg hcpu, fallbackAllocate]
      by_cases hpos : 0 < current m (getSlabs base cpu) sc
      · rw [if_pos hpos] at h
        have hcur : current m₂ (getSlabs base cpu) sc = current m (getSlabs base cpu) sc :=
          h _ List.mem_cons_self
        rw [hcur, if_pos hpos, if_pos hpos]
        exact congrArg SlabAnswer.popped (h _ (List.mem_cons_of_mem _ List.mem_cons_self))
      · rw [if_neg hpos] at h
        have hcur : current m₂ (getSlabs base cpu) sc = current m (getSlabs base cpu) sc :=
          h _ List.mem_cons_self
        rw [hcur, if_neg hpos, if_neg hpos]
  | push cpu sc ptr =>
      simp only [SlabOp.cpu] at *
      simp only [SlabOp.accessesIn] at h
      simp only [SlabOp.apply, slabPush, getSlabsChecked, if_neg hcpu, fallbackDeallocate]
      have hcur : current m₂ (getSlabs base cpu) sc = current m (getSlabs base cpu) sc := by
        split at h <;> exact h _ List.mem_cons_self
      rw [hcur]
      split <;> rfl

/-! ### Runs -/

/-- **A family of independent bounded stacks.**  For any number of slabs, from zeroed memory and
after any pushes and pops on any CPUs: the answers were those of the lists, and the stacks are
within their bounds and hold the lists.  Each further operation leaves the cells of all other CPUs
and classes, loads and stores only inside the mapped region, and on a CPU without a slab it does
nothing and fails. -/
theorem family_of_stacks
    (hzero : ∀ a, base ≤ a → a < base + count * slabStrideBytes → m.byte a = 0)
    {ops : List SlabOp} (hops : ∀ o ∈ ops, o.Valid) :
    (answers (SlabOp.apply base count) m ops).1 =
        (answers (SlabOp.onLists count) (fun _ _ => []) ops).1 ∧
      Represents base count (answers (SlabOp.apply base count) m ops).2
        (answers (SlabOp.onLists count) (fun _ _ => []) ops).2 ∧
      ∀ o : SlabOp, o.Valid → ∀ m', m' = (answers (SlabOp.apply base count) m ops).2 →
        (∀ cpu c a k, cpu < count → c < numSizeClasses → cpu ≠ o.cpu ∨ c ≠ o.sc →
          Cell base cpu c a k → (o.apply base count m').2.load a k = m'.load a k) ∧
        (∀ w ∈ o.accesses base count m',
          base ≤ w.1 ∧ w.1 + w.2 ≤ base + count * slabStrideBytes) ∧
        Memory.Wrote (fun a k => (a, k) ∈ o.accesses base count m') m' (o.apply base count m').2 ∧
        (∀ m₂ : Memory, (∀ w ∈ o.accesses base count m', m₂.load w.1 w.2 = m'.load w.1 w.2) →
          (o.apply base count m₂).1 = (o.apply base count m').1) ∧
        (count ≤ o.cpu → o.apply base count m' = (o.failure, m')) := by
  obtain ⟨hsame, hrep⟩ := answers_eq (f := SlabOp.apply base count) (g := SlabOp.onLists count)
    (J := Represents base count) (P := SlabOp.Valid)
    (fun m f o h ho => ⟨(apply_spec h ho).1, (apply_spec h ho).2.1⟩) (represents_zero hzero) hops
  refine ⟨hsame, hrep, fun o ho m' hm' => ?_⟩
  subst hm'
  obtain ⟨-, -, hw⟩ := apply_spec hrep ho
  refine ⟨fun cpu c a k _ hc hne hcell => hw.load_eq fun _ _ h => ?_, fun w hw => ?_,
    wrote_accesses o, fun m₂ => apply_congr, apply_of_le⟩
  · exact hcell.disjoint hc ho.sc_lt hne h
  · obtain ⟨hlt, hcell⟩ := cell_of_access hrep ho hw
    exact hcell.region hlt ho.sc_lt

/-- Three pushes and four pops on two slabs. -/
theorem family_of_stacks_sample :
    (answers (SlabOp.apply 4096 2) Memory.zero [.push 0 1 64, .push 1 1 72, .push 0 1 80,
        .pop 0 1, .pop 1 1, .pop 0 1, .pop 2 1]).1 =
      (answers (SlabOp.onLists 2) (fun _ _ => []) [.push 0 1 64, .push 1 1 72, .push 0 1 80,
        .pop 0 1, .pop 1 1, .pop 0 1, .pop 2 1]).1 :=
  (family_of_stacks (fun _ _ _ => rfl) (by decide)).1

end Slabs

end TieredAllocator
