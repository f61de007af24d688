import TieredAllocator.Config.SizeClasses

/-!
# Config — the size-class search, run step by step

`lowerBound` says what the two searches of `size_classes.hpp` compute.  Here they are run as the
code runs them: indices are 32-bit numbers, the loop goes on while `lo < hi`, and each index read
from the table is kept.  On a table of increasing sizes whose entry 0 has size 0 they end, read
inside the table, and find what a scan finds that looks at one entry after the other
(`size_class_search`).
-/

namespace TieredAllocator

/-! ### The loop -/

/-- The loop of both searches: the indices it reads and the last `lo`, `none` if it takes more than
`fuel` tests of `lo < hi`. -/
def searchLoop (size : Nat → Nat) (n : Nat) : (fuel lo hi : Nat) → Option (List Nat × Nat)
  | 0, _, _ => none
  | fuel + 1, lo, hi =>
      if lo < hi then
        let mid := add32 lo (sub32 hi lo / 2)
        let rest :=
          if size mid < n then searchLoop size n fuel (add32 mid 1) hi
          else searchLoop size n fuel lo mid
        rest.map fun (reads, last) => (mid :: reads, last)
      else some ([], lo)

/-- `round_size_class` with the indices it reads. -/
def roundRun (table : Nat → SizeClassInfo) (num fuel n : Nat) :
    Option (List Nat × (SizeClassInfo × Nat)) :=
  if n = 0 then some ([1], (table 1, 1))
  else
    (searchLoop (fun i => (table i).size) n fuel 1 (num - 1)).map fun (reads, lo) =>
      if n ≤ (table lo).size then (reads ++ [lo], (table lo, lo))
      else (reads ++ [lo, 0], (table 0, 0))

/-- `size_class_to_idx` with the indices it reads. -/
def idxRun (table : Nat → SizeClassInfo) (num fuel size : Nat) : Option (List Nat × Nat) :=
  searchLoop (fun i => (table i).size) size fuel 0 (num - 1)

/-! ### The linear versions -/

/-- The first class from 1 on that holds `n`, entry 0 if there is none. -/
def scan (table : Nat → SizeClassInfo) (num n : Nat) : SizeClassInfo × Nat :=
  match (List.range' 1 (num - 1)).find? fun i => n ≤ (table i).size with
  | some i => (table i, i)
  | none => (table 0, 0)

/-- `round_size_class_linear`, which the source keeps as a comment. -/
def roundLinear (table : Nat → SizeClassInfo) (num n : Nat) : SizeClassInfo :=
  match (List.range' 1 (num - 1)).find? fun i => n ≤ (table i).size ∧ (table (i - 1)).size < n with
  | some i => table i
  | none => ⟨0, 0, 0, 0⟩

/-- `size_class_to_idx_linear`, a comment too. -/
def idxLinear (table : Nat → SizeClassInfo) (num : Nat) (sc : SizeClassInfo) : Nat :=
  match (List.range' 0 num).find? fun i => (table i).size = sc.size with
  | some i => i
  | none => 0

/-! ### The loop ends -/

/-- The loop computes `lowerBound`, and reads entries of `[lo, hi)`. -/
theorem searchLoop_eq (size : Nat → Nat) (n fuel rounds lo hi : Nat) (hle : lo ≤ hi)
    (hhi : hi < 2 ^ 32) (hfuel : hi - lo < fuel) (hrounds : hi - lo ≤ rounds) :
    ∃ reads, searchLoop size n fuel lo hi = some (reads, lowerBound size n rounds lo hi) ∧
      ∀ i ∈ reads, lo ≤ i ∧ i < hi := by
  induction fuel generalizing rounds lo hi with
  | zero => omega
  | succ fuel ih =>
      by_cases hlt : lo < hi
      · obtain ⟨rounds, rfl⟩ : ∃ r, rounds = r + 1 := ⟨rounds - 1, by omega⟩
        have hmid : add32 lo (sub32 hi lo / 2) = lo + (hi - lo) / 2 := by
          rw [add32, sub32]
          omega
        have hnext : add32 (lo + (hi - lo) / 2) 1 = lo + (hi - lo) / 2 + 1 := by
          rw [add32]
          omega
        rw [searchLoop, if_pos hlt, lowerBound, if_pos hlt]
        simp only [hmid, hnext]
        by_cases hs : size (lo + (hi - lo) / 2) < n
        · obtain ⟨reads, heq, hin⟩ := ih rounds (lo + (hi - lo) / 2 + 1) hi
            (by omega) hhi (by omega) (by omega)
          refine ⟨(lo + (hi - lo) / 2) :: reads, by simp [hs, heq], fun i hi => ?_⟩
          rcases List.mem_cons.mp hi with rfl | hi
          · omega
          · have := hin i hi
            omega
        · obtain ⟨reads, heq, hin⟩ := ih rounds lo (lo + (hi - lo) / 2)
            (by omega) (by omega) (by omega) (by omega)
          refine ⟨(lo + (hi - lo) / 2) :: reads, by simp [hs, heq], fun i hi => ?_⟩
          rcases List.mem_cons.mp hi with rfl | hi
          · omega
          · have := hin i hi
            omega
      · obtain rfl : lo = hi := by omega
        refine ⟨[], ?_, fun i hi => absurd hi List.not_mem_nil⟩
        cases rounds <;> simp [searchLoop, lowerBound]

/-! ### What the searches find -/

/-- What is asked of the two searches on a table of `num` entries. -/
structure Searches (table : Nat → SizeClassInfo) (num : Nat) : Prop where
  /-- `round_size_class` ends for every request, and reads inside the table -/
  roundEnds : ∀ n < 2 ^ 64, ∀ fuel, num ≤ fuel →
    ∃ reads, roundRun table num fuel n = some (reads, roundIn table num n) ∧ ∀ i ∈ reads, i < num
  idxEnds : ∀ size < 2 ^ 32, ∀ fuel, num ≤ fuel →
    ∃ reads, idxRun table num fuel size = some (reads, idxIn table num size) ∧
      ∀ i ∈ reads, i < num
  entry : ∀ n, (roundIn table num n).1 = table (roundIn table num n).2
  /-- a request that some class holds goes to the first one that does -/
  smallest : ∀ n i, 1 ≤ i → i < num → n ≤ (table i).size →
    1 ≤ (roundIn table num n).2 ∧ (roundIn table num n).2 ≤ i ∧
      n ≤ (table (roundIn table num n).2).size ∧
      ∀ j, 1 ≤ j → j < (roundIn table num n).2 → (table j).size < n
  zero : (roundIn table num 0).2 = 1
  oversize : ∀ n, (roundIn table num n).2 = 0 ↔ ∀ i, 1 ≤ i → i < num → (table i).size < n
  scan : ∀ n, roundIn table num n = scan table num n
  /-- the linear version knows no class for 0 -/
  roundLinear : ∀ n, roundLinear table num n =
    if n = 0 ∨ (roundIn table num n).2 = 0 then ⟨0, 0, 0, 0⟩ else (roundIn table num n).1
  idxLinear : ∀ n, idxLinear table num (roundIn table num n).1 = (roundIn table num n).2
  mono : ∀ m n, m ≤ n → n ≤ (table (num - 1)).size →
    (roundIn table num m).2 ≤ (roundIn table num n).2
  roundTrip : ∀ n, idxIn table num (roundIn table num n).1.size = (roundIn table num n).2

section Table

variable {table : Nat → SizeClassInfo} {num : Nat}
  (hmono : ∀ i j, i < j → j < num → (table i).size < (table j).size) (hnum : 1 < num)

include hmono hnum

/-- Either the request has a first class that holds it, and goes there, or it goes to entry 0. -/
theorem roundIn_cases (n : Nat) :
    (∃ i, roundIn table num n = (table i, i) ∧ 1 ≤ i ∧ i < num ∧ n ≤ (table i).size ∧
        ∀ j, 1 ≤ j → j < i → (table j).size < n) ∨
      (roundIn table num n = (table 0, 0) ∧ ∀ i, 1 ≤ i → i < num → (table i).size < n) := by
  rcases Nat.lt_or_ge (table (num - 1)).size n with hgt | hle
  · refine .inr ⟨roundIn_of_gt hmono hnum hgt, fun i _ hi => ?_⟩
    exact lt_of_le_of_lt (size_le_of_le hmono (by omega) (by omega)) hgt
  · obtain ⟨hentry, h₁, h₂, h₃, h₄⟩ := roundIn_spec hmono hnum hle
    exact .inl ⟨_, Prod.ext hentry rfl, h₁, h₂, h₃, h₄⟩

theorem roundRun_eq (hbits : num < 2 ^ 32) {fuel : Nat} (hfuel : num ≤ fuel) (n : Nat) :
    ∃ reads, roundRun table num fuel n = some (reads, roundIn table num n) ∧
      ∀ i ∈ reads, i < num := by
  by_cases h0 : n = 0
  · refine ⟨[1], by simp [roundRun, roundIn, h0], fun i hi => ?_⟩
    obtain rfl := List.mem_singleton.mp hi
    exact hnum
  · obtain ⟨reads, heq, hin⟩ := searchLoop_eq (fun i => (table i).size) n fuel (num - 1) 1 (num - 1)
      (by omega) (by omega) (by omega) (by omega)
    obtain ⟨-, hlast, -, -⟩ := lowerBound_spec (fun i => (table i).size) n (num - 1) 1 (num - 1)
      (fun i j hij hj => size_le_of_le hmono hij (by omega)) (by omega) (by omega)
    simp only [roundRun, roundIn, if_neg h0, heq, Option.map_some]
    generalize lowerBound (fun i => (table i).size) n (num - 1) 1 (num - 1) = lo at *
    -- behind the loop the entry at `lo` is read, and entry 0 if that one is too small
    have hreads : ∀ i ∈ reads ++ [lo, 0], i < num := by
      intro i hi
      simp only [List.mem_append, List.mem_cons, List.not_mem_nil, or_false] at hi
      rcases hi with hi | rfl | rfl
      · have := (hin i hi).2
        omega
      · omega
      · omega
    by_cases hs : n ≤ (table lo).size
    · refine ⟨reads ++ [lo], by simp [hs], fun i hi => hreads i ?_⟩
      rcases List.mem_append.mp hi with hi | hi
      · exact List.mem_append_left _ hi
      · exact List.mem_append_right _ (List.mem_singleton.mp hi ▸ List.mem_cons_self)
    · exact ⟨reads ++ [lo, 0], by simp [hs], hreads⟩

omit hmono in
theorem idxRun_eq (hbits : num < 2 ^ 32) {fuel : Nat} (hfuel : num ≤ fuel) (size : Nat) :
    ∃ reads, idxRun table num fuel size = some (reads, idxIn table num size) ∧
      ∀ i ∈ reads, i < num := by
  obtain ⟨reads, heq, hin⟩ := searchLoop_eq (fun i => (table i).size) size fuel (num - 1) 0
    (num - 1) (by omega) (by omega) (by omega) (by omega)
  refine ⟨reads, heq, fun i hi => ?_⟩
  have := (hin i hi).2
  omega

/-! #### Against the linear versions -/

theorem roundIn_eq_scan (n : Nat) : roundIn table num n = scan table num n := by
  rcases roundIn_cases hmono hnum n with ⟨i, heq, h₁, h₂, hfit, hfirst⟩ | ⟨heq, hno⟩
  · have hfind : (List.range' 1 (num - 1)).find? (fun i => n ≤ (table i).size) = some i := by
      rw [List.find?_range'_eq_some]
      refine ⟨by simpa using hfit, List.mem_range'_1.mpr ⟨h₁, by omega⟩, fun j hj hji => ?_⟩
      simpa using hfirst j hj hji
    rw [heq, scan, hfind]
  · have hfind : (List.range' 1 (num - 1)).find? (fun i => n ≤ (table i).size) = none := by
      rw [List.find?_range'_eq_none]
      intro i hi hlt
      simpa using hno i hi (by omega)
    rw [heq, scan, hfind]

/-- The linear version asks that the class before is too small, which for 0 none is. -/
theorem roundLinear_eq (hzero : (table 0).size = 0) (n : Nat) : roundLinear table num n =
    if n = 0 ∨ (roundIn table num n).2 = 0 then ⟨0, 0, 0, 0⟩ else (roundIn table num n).1 := by
  rcases Nat.eq_zero_or_pos n with rfl | hpos
  · have hfind : (List.range' 1 (num - 1)).find?
        (fun i => 0 ≤ (table i).size ∧ (table (i - 1)).size < 0) = none := by
      rw [List.find?_range'_eq_none]
      intro i _ _
      simp
    rw [roundLinear, hfind, if_pos (.inl rfl)]
  rcases roundIn_cases hmono hnum n with ⟨i, heq, h₁, h₂, hfit, hfirst⟩ | ⟨heq, hno⟩
  · have hfind : (List.range' 1 (num - 1)).find?
        (fun i => n ≤ (table i).size ∧ (table (i - 1)).size < n) = some i := by
      rw [List.find?_range'_eq_some]
      have hbefore : (table (i - 1)).size < n := by
        rcases Nat.eq_or_lt_of_le h₁ with rfl | hlt
        · rw [Nat.sub_self, hzero]
          exact hpos
        · exact hfirst (i - 1) (by omega) (by omega)
      refine ⟨by simpa using ⟨hfit, hbefore⟩, List.mem_range'_1.mpr ⟨h₁, by omega⟩,
        fun j hj hji => ?_⟩
      have := hfirst j hj hji
      simp [not_le.mpr this]
    have hne : ¬ (n = 0 ∨ i = 0) := by omega
    rw [roundLinear, hfind, heq, if_neg hne]
  · have hfind : (List.range' 1 (num - 1)).find?
        (fun i => n ≤ (table i).size ∧ (table (i - 1)).size < n) = none := by
      rw [List.find?_range'_eq_none]
      intro i hi hlt
      have := hno i hi (by omega)
      simp [not_le.mpr this]
    rw [roundLinear, hfind, heq, if_pos (.inr rfl)]

omit hnum in
theorem idxLinear_size {i : Nat} (hi : i < num) : idxLinear table num (table i) = i := by
  have hfind : (List.range' 0 num).find? (fun j => (table j).size = (table i).size) = some i := by
    rw [List.find?_range'_eq_some]
    refine ⟨by simp, List.mem_range'_1.mpr ⟨Nat.zero_le _, by omega⟩, fun j _ hji => ?_⟩
    simpa using (hmono j i hji hi).ne
  rw [idxLinear, hfind]

/-- Both searches, on any increasing table whose entry 0 has size 0. -/
theorem searches (hzero : (table 0).size = 0) (hbits : num < 2 ^ 32) : Searches table num where
  roundEnds n _ fuel hfuel := roundRun_eq hmono hnum hbits hfuel n
  idxEnds size _ fuel hfuel := idxRun_eq hnum hbits hfuel size
  entry n := by
    rcases roundIn_cases hmono hnum n with ⟨i, heq, -⟩ | ⟨heq, -⟩
    · rw [heq]
    · rw [heq]
  smallest n i h₁ h₂ hfit := by
    rcases roundIn_cases hmono hnum n with ⟨j, heq, hj₁, hj₂, hfitj, hfirst⟩ | ⟨heq, hno⟩
    · rw [heq]
      refine ⟨hj₁, ?_, hfitj, hfirst⟩
      by_contra hij
      exact absurd hfit (not_le.mpr (hfirst i h₁ (not_le.mp hij)))
    · exact absurd hfit (not_le.mpr (hno i h₁ h₂))
  zero := by rw [roundIn, if_pos rfl]
  oversize n := by
    rcases roundIn_cases hmono hnum n with ⟨i, heq, h₁, h₂, hfit, -⟩ | ⟨heq, hno⟩
    · rw [heq]
      refine ⟨fun h => ?_, fun h => absurd hfit (not_le.mpr (h i h₁ h₂))⟩
      have : i = 0 := h
      omega
    · rw [heq]
      exact ⟨fun _ => hno, fun _ => rfl⟩
  scan := roundIn_eq_scan hmono hnum
  roundLinear := roundLinear_eq hmono hnum hzero
  idxLinear n := by
    rcases roundIn_cases hmono hnum n with ⟨i, heq, -, h₂, -⟩ | ⟨heq, -⟩
    · rw [heq]
      exact idxLinear_size hmono h₂
    · rw [heq]
      exact idxLinear_size hmono (by omega)
  mono m n hmn hn := by
    obtain ⟨-, h₁, h₂, hfit, -⟩ := roundIn_spec hmono hnum hn
    obtain ⟨-, -, -, -, hfirst⟩ := roundIn_spec hmono hnum (hmn.trans hn)
    by_contra hlt
    have := hfirst _ h₁ (not_le.mp hlt)
    omega
  roundTrip n := by
    rcases roundIn_cases hmono hnum n with ⟨i, heq, -, h₂, -⟩ | ⟨heq, -⟩
    · rw [heq]
      exact idxIn_size hmono h₂
    · rw [heq]
      exact idxIn_size hmono (by omega)

end Table

/-- **The size-class search.**  For every request the binary search ends and reads inside the table;
it finds the first class that holds the request, class 1 for 0 and entry 0 exactly when no class
holds it; it is what a scan finds, does not decrease up to the largest class, and
`size_class_to_idx` leads back.  So it is on the table of the source, and on every other one that
increases from an entry of size 0. -/
theorem size_class_search :
    Searches sizeClass numSizeClasses ∧
      ∀ (table : Nat → SizeClassInfo) (num : Nat), 1 < num → num < 2 ^ 32 →
        (table 0).size = 0 → (∀ i j, i < j → j < num → (table i).size < (table j).size) →
        Searches table num :=
  ⟨searches (fun _ _ => sizeClass_size_lt) (by decide) (by decide) (by decide),
    fun _ _ hnum hbits hzero hmono => searches hmono hnum hzero hbits⟩

/-- A table of two classes, and 16 bytes on it. -/
theorem size_class_search_sample :
    (roundIn (fun i => ⟨16 * i, 1, 1, 0⟩) 3 16).2 = 1 ∧
      Searches (fun i => ⟨16 * i, 1, 1, 0⟩) 3 :=
  ⟨by decide, size_class_search.2 _ 3 (by decide) (by decide) (by decide)
    fun i j hij _ => by dsimp only; omega⟩

end TieredAllocator
