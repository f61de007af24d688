import Mathlib.Tactic

/-!
# Library — families of extents

An extent is a non-empty interval of a line, free or in use; a family of extents is a partial map
from names.  An *index* maps a point to a name; it is exact for a family when it sends a point to
the one extent that covers it and no other point anywhere (`Exact`).  An exact index makes the
extents disjoint (`Exact.disjoint`), and stays exact when a name is erased together with its
points (`Exact.erase`) or entered together with points no extent covers (`Exact.enter`).
-/

namespace TieredAllocator.Lib

structure Extent where
  start : Nat
  len : Nat
  free : Bool
deriving DecidableEq

namespace Extent

def Mem (e : Extent) (q : Nat) : Prop := e.start ≤ q ∧ q < e.start + e.len

/-- `f` begins where `e` ends. -/
def Adjacent (e f : Extent) : Prop := e.start + e.len = f.start

end Extent

/-- A family of extents. -/
abbrev Extents (ι : Type*) := ι → Option Extent

variable {ι : Type*}

namespace Extents

/-- The extent named `i` covers `q`. -/
def Covers (E : Extents ι) (i : ι) (q : Nat) : Prop := ∃ e, E i = some e ∧ e.Mem q

end Extents

/-- The index `m` after the points of `[a, a + n)` are sent to `v`. -/
def fill (m : Nat → Option ι) (a n : Nat) (v : Option ι) : Nat → Option ι :=
  fun q => if a ≤ q ∧ q < a + n then v else m q

theorem fill_of_mem {m : Nat → Option ι} {e : Extent} {v : Option ι} {q : Nat} (h : e.Mem q) :
    fill m e.start e.len v q = v :=
  if_pos h

theorem fill_of_not_mem {m : Nat → Option ι} {e : Extent} {v : Option ι} {q : Nat}
    (h : ¬ e.Mem q) : fill m e.start e.len v q = m q :=
  if_neg h

/-- `m` sends exactly the points of each extent to its name. -/
def Exact (m : Nat → Option ι) (E : Extents ι) : Prop := ∀ q i, m q = some i ↔ E.Covers i q

namespace Exact

variable {m : Nat → Option ι} {E F : Extents ι} {i j : ι} {e f : Extent} {q : Nat}

theorem index_eq (h : Exact m E) (hi : E i = some e) (hq : e.Mem q) : m q = some i :=
  (h q i).mpr ⟨e, hi, hq⟩

theorem disjoint (h : Exact m E) (hi : E i = some e) (hj : E j = some f) (hne : i ≠ j) :
    e.start + e.len ≤ f.start ∨ f.start + f.len ≤ e.start ∨ e.len = 0 ∨ f.len = 0 := by
  by_contra hcon
  simp only [not_or, not_le] at hcon
  -- the larger of the two starts lies in both
  have he : e.Mem (max e.start f.start) := by simp only [Extent.Mem]; omega
  have hf : f.Mem (max e.start f.start) := by simp only [Extent.Mem]; omega
  exact hne (Option.some.inj ((h.index_eq hi he).symm.trans (h.index_eq hj hf)))

/-- Only where the extents lie matters, not whether they are free. -/
theorem congr (h : Exact m E) (hEF : ∀ i q, F.Covers i q ↔ E.Covers i q) : Exact m F :=
  fun q i => (h q i).trans (hEF i q).symm

theorem none_iff (h : Exact m E) : m q = none ↔ ∀ i, ¬ E.Covers i q := by
  rw [Option.eq_none_iff_forall_not_mem]
  exact forall_congr' fun i => not_congr (h q i)

variable [DecidableEq ι]

theorem erase (h : Exact m E) (hi : E i = some e) :
    Exact (fill m e.start e.len none) (Function.update E i none) := by
  intro q j
  simp only [Extents.Covers]
  by_cases hq : e.Mem q
  · rw [fill_of_mem hq]
    refine ⟨fun hj => by simp at hj, ?_⟩
    rintro ⟨f, hf, hfq⟩
    by_cases hji : j = i
    · simp [hji] at hf
    · rw [Function.update_of_ne hji] at hf
      exact absurd (Option.some.inj ((h.index_eq hf hfq).symm.trans (h.index_eq hi hq))) hji
  · rw [fill_of_not_mem hq, h q j]
    by_cases hji : j = i
    · subst hji
      simp only [Extents.Covers, hi, Function.update_self, Option.some.injEq, exists_eq_left']
      simpa using hq
    · simp [Extents.Covers, Function.update_of_ne hji]

theorem enter (h : Exact m E) (hi : E i = none)
    (hfree : ∀ q, e.Mem q → ∀ j, ¬ E.Covers j q) :
    Exact (fill m e.start e.len (some i)) (Function.update E i (some e)) := by
  intro q j
  simp only [Extents.Covers]
  by_cases hq : e.Mem q
  · rw [fill_of_mem hq]
    by_cases hji : j = i
    · subst hji
      simpa using hq
    · rw [Function.update_of_ne hji]
      refine ⟨fun hj => absurd (Option.some.inj hj).symm hji, ?_⟩
      rintro ⟨f, hf, hfq⟩
      exact absurd ⟨f, hf, hfq⟩ (hfree q hq j)
  · rw [fill_of_not_mem hq, h q j]
    by_cases hji : j = i
    · subst hji
      simp only [Extents.Covers, hi, Function.update_self, Option.some.injEq, exists_eq_left']
      simpa using hq
    · simp [Extents.Covers, Function.update_of_ne hji]

end Exact

end TieredAllocator.Lib
