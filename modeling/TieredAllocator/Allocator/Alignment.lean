import TieredAllocator.Allocator.Routing

/-!
# Allocator — alignment

A span begins at a page and holds objects of one size, so a block is aligned as far as the size of
its class and the page size are (`Process.Contained.gcd_dvd`).  With the sizes of the table: each
block at 8, a block of more than 8 bytes at 16 unless it is of the class of 312, and a block of a
power of two at its own size, up to the page size (`live_aligned`).
-/

namespace TieredAllocator
open Lib

/-! ### The sizes -/

theorem eight_dvd_size (i : Nat) : 8 ∣ (sizeClass i).size := by
  by_cases hi : i < numSizeClasses
  · have h : ∀ i < numSizeClasses, 8 ∣ (sizeClass i).size := by decide +kernel
    exact h i hi
  · rw [sizeClass, List.getD_eq_getElem?_getD, List.getElem?_eq_none (not_lt.mp hi)]
    exact Nat.dvd_zero 8

/-- The classes of 8 and 312 bytes are those not aligned at 16. -/
theorem sixteen_dvd_size_iff {i : Nat} (hi : i < numSizeClasses) :
    16 ∣ (sizeClass i).size ↔ (sizeClass i).size ≠ 8 ∧ (sizeClass i).size ≠ 312 := by
  have h : ∀ i < numSizeClasses,
      16 ∣ (sizeClass i).size ↔ (sizeClass i).size ≠ 8 ∧ (sizeClass i).size ≠ 312 := by
    decide +kernel
  exact h i hi

/-- Of two powers of two the smaller one divides both, and both divide the larger one. -/
theorem two_pow_dvd (i j : Nat) : min (2 ^ i) (2 ^ j) ∣ 2 ^ j ∧ 2 ^ i ∣ max (2 ^ j) (2 ^ i) := by
  rcases le_total i j with h | h
  · have hle : 2 ^ i ≤ 2 ^ j := Nat.pow_le_pow_right (by decide) h
    rw [min_eq_left hle, max_eq_left hle]
    exact ⟨Nat.pow_dvd_pow 2 h, Nat.pow_dvd_pow 2 h⟩
  · have hle : 2 ^ j ≤ 2 ^ i := Nat.pow_le_pow_right (by decide) h
    rw [min_eq_right hle, max_eq_right hle]
    exact ⟨dvd_rfl, dvd_rfl⟩

/-- The powers of two from 8 on are sizes of the table. -/
theorem size_of_two_pow {k : Nat} (hk : 2 ^ k ≤ maxSize) :
    (sizeClass (roundSizeClass (2 ^ k)).2).size = max 8 (2 ^ k) := by
  have h : ∀ k < 19, (sizeClass (roundSizeClass (2 ^ k)).2).size = max 8 (2 ^ k) := by
    decide +kernel
  refine h k (Nat.lt_succ_of_le ?_)
  exact (Nat.pow_le_pow_iff_right (by decide)).mp (show 2 ^ k ≤ 2 ^ 18 from hk)

/-- A request above 8 bytes that is not rounded to 312. -/
theorem sixteen_dvd_of_request {n : Nat} (hn : n ≤ maxSize) (h8 : 8 < n)
    (h312 : n ≤ 256 ∨ 312 < n) : 16 ∣ (sizeClass (roundSizeClass n).2).size := by
  obtain ⟨-, h₁, hc, hle, hleast⟩ := roundSizeClass_spec hn
  refine (sixteen_dvd_size_iff hc).mpr ⟨by omega, fun h => ?_⟩
  -- the class of 312 is the thirteenth, and 256 the size before it
  have hidx : (roundSizeClass n).2 = 13 := by
    rw [← sizeClassToIdx_size hc, h]
    decide +kernel
  have hbefore : 256 < n := hleast 12 (by decide) (by omega)
  omega

/-! ### The blocks -/

variable {ι : Type} [Fintype ι]

namespace World.Inv

variable {w : World} {γ : ι → Option Held} {b : Block}

/-- What divides the size of its class and the page size divides the address of a block. -/
theorem gcd_dvd (hi : w.Inv γ) (hb : b ∈ w.live) :
    Nat.gcd (sizeClass b.sc).size pageSize ∣ b.ptr := by
  obtain ⟨L, S, hback⟩ := hi.backend
  obtain ⟨s, x, i, -, -, -, hptr, hsize, -⟩ := hi.live_object hback hb
  have hpage : Nat.gcd (sizeClass b.sc).size pageSize ∣ x.base :=
    (Nat.gcd_dvd_right _ _).trans (Nat.dvd_mul_left _ _)
  have hobject : Nat.gcd (sizeClass b.sc).size pageSize ∣ i * x.size := by
    rw [hsize]
    exact (Nat.gcd_dvd_left _ _).trans (Nat.dvd_mul_left _ _)
  rw [hptr]
  exact Nat.dvd_add hpage hobject

theorem live_le_maxSize (hi : w.Inv γ) (hb : b ∈ w.live) : b.size ≤ maxSize := by
  by_contra hgt
  have hsc := (hi.range (live_handed hb)).1
  rw [Block.sc, roundSizeClass_of_gt (not_le.mp hgt)] at hsc
  exact absurd hsc (by decide)

end World.Inv

/-- **Alignment.**  In each state of a run a live block is aligned at 8 bytes; one of more than 8
bytes at 16, unless it was asked for with 257 to 312 bytes; and one of a power of two at its size
or the page size, whichever is less. -/
theorem live_aligned [DecidableEq ι] {mem : Memory} {foreign : Nat → Bool}
    {slabPage slabCount : Nat} {ls : List (Step ι Call Env ClientWrite)} {u : Process ι}
    (r : (Process.system ι).Run (Process.init ι mem foreign slabPage slabCount) ls u)
    {b : Block} (hb : b ∈ u.state.live) :
    8 ∣ b.ptr ∧ (8 < b.size → b.size ≤ 256 ∨ 312 < b.size → 16 ∣ b.ptr) ∧
      ∀ k, b.size = 2 ^ k → min (2 ^ k) pageSize ∣ b.ptr := by
  have hi := (ok_of_run r).1
  have hdvd := hi.gcd_dvd hb
  have hmax := hi.live_le_maxSize hb
  refine ⟨?_, fun h8 h312 => ?_, fun k hk => ?_⟩
  · exact (Nat.dvd_gcd (eight_dvd_size _) (by decide)).trans hdvd
  · exact (Nat.dvd_gcd (sixteen_dvd_of_request hmax h8 h312) (by decide)).trans hdvd
  · have hsize : (sizeClass b.sc).size = max 8 (2 ^ k) := by
      rw [Block.sc, hk]
      exact size_of_two_pow (hk ▸ hmax)
    rw [hsize] at hdvd
    refine Dvd.dvd.trans (Nat.dvd_gcd ?_ ?_) hdvd
    · rw [min_comm]
      exact (two_pow_dvd 12 k).1.trans (two_pow_dvd k 3).2
    · exact (two_pow_dvd k 12).1

/-- The block of `sampleSteps`. -/
theorem live_aligned_sample : ∃ u, (Process.system (Fin 2)).Run
    (Process.init (Fin 2) Memory.zero (fun _ => false) 1000 1) sampleSteps u ∧
      ∃ b ∈ u.state.live, 16 ∣ b.ptr := by
  obtain ⟨u, -, r, hlive, -⟩ := sampleSteps_run
  have hb : (⟨196608, 20000⟩ : Block) ∈ u.state.live := by
    rw [hlive]
    exact List.mem_singleton_self _
  exact ⟨u, r, _, hb, (live_aligned r hb).2.1 (by decide) (.inr (by decide))⟩

end TieredAllocator
