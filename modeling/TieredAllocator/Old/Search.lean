import TieredAllocator.Old.Runs

/-!
# Old design — the search

`allocate` searches the free list from behind `prev_search_end`, wraps around at its end, and gives
up where it comes by its starting point again.  It comes by it unless `prev_search_end` is the last
node: then it started at the head, and each time it gets to the last node it wraps.  So the search
ends, and misses no block, in each state but those in which the count promises the bytes, no block
is large enough, and the cursor is the last node (`search_complete_iff`).
-/

namespace TieredAllocator.Old
open Lib

variable {a : Allocator} {g : Ghost} {loose : Option Nat} {b c n p prev curr : Nat} {fuel : Nat}
  {l u v : List Nat}

namespace Allocator

/-- Some block on the free list has `n` bytes. -/
def HasFit (a : Allocator) (n : Nat) : Prop := ∃ i, a.nthFree i ≠ 0 ∧ n ≤ a.size (a.nthFree i)

/-- For a request of `n` bytes the search loop ends, and if some block on the free list is large
enough then `allocate` returns the memory of one of them, without a call to `sbrk` or `mmap`. -/
structure SearchComplete (a : Allocator) (n : Nat) : Prop where
  ends : ∃ fuel, (a.findFit fuel n).isSome
  complete : a.HasFit n → ∀ k fuel p a', a.allocate k fuel n = some (p, a') →
    a'.os = a.os ∧ ∃ i, a.nthFree i ≠ 0 ∧ n ≤ a.size (a.nthFree i) ∧ p = a.nthFree i + headerSize

/-- The free blocks have `n` bytes together but none alone, and the cursor is the last of them. -/
def Stuck (a : Allocator) (n : Nat) : Prop :=
  n ≤ a.availableBytes ∧ a.prevSearchEnd ≠ 0 ∧ a.next a.prevSearchEnd = 0 ∧ ¬ a.HasFit n

end Allocator

/-! ### Along the list -/

/-- What the loop tests at `c`. -/
def Fits (a : Allocator) (n c : Nat) : Prop := a.isFree c = true ∧ n ≤ a.size c

instance (a : Allocator) (n c : Nat) : Decidable (Fits a n c) :=
  inferInstanceAs (Decidable (_ ∧ _))

/-- The loop passes over blocks that are too small, as long as it neither wraps nor gives up. -/
theorem search_skip (hl : Walk a curr (u ++ v)) (hsmall : ∀ y ∈ u, ¬ Fits a n y)
    (hgo : ∀ y ∈ u, a.prevSearchEnd ≠ 0 →
      a.next y ≠ 0 ∧ a.next y ≠ a.next a.prevSearchEnd) (prev : Nat) :
    ∃ prev' curr', Walk a curr' v ∧
      ∀ fuel, a.search n (u.length + fuel) prev curr = a.search n fuel prev' curr' := by
  induction u generalizing prev curr with
  | nil => exact ⟨prev, curr, hl, fun fuel => by rw [List.length_nil, Nat.zero_add]⟩
  | cons y u ih =>
      obtain ⟨rfl, hpos⟩ := ptr_eq_some.mp hl.1
      obtain ⟨prev', curr', hwalk, heq⟩ := ih hl.2
        (fun z hz => hsmall z (List.mem_cons_of_mem _ hz))
        (fun z hz => hgo z (List.mem_cons_of_mem _ hz)) curr
      have hno : ¬ (a.isFree curr = true ∧ n ≤ a.size curr) := hsmall curr List.mem_cons_self
      have hwrap : ¬ (a.prevSearchEnd ≠ 0 ∧ a.next curr = 0) := fun h =>
        (hgo curr List.mem_cons_self h.1).1 h.2
      have hstop : ¬ (a.prevSearchEnd ≠ 0 ∧ a.next curr = a.next a.prevSearchEnd) := fun h =>
        (hgo curr List.mem_cons_self h.1).2 h.2
      refine ⟨prev', curr', hwalk, fun fuel => ?_⟩
      rw [List.length_cons, show u.length + 1 + fuel = u.length + fuel + 1 by omega,
        Allocator.search,
        if_neg (by omega), if_neg hno, if_neg hwrap, if_neg hstop, heq]

/-- The loop stops at a block that fits. -/
theorem search_hit (hl : Walk a curr (c :: v)) (hfit : Fits a n c) (prev fuel : Nat) :
    a.search n (fuel + 1) prev curr = some (some (prev, c)) := by
  obtain ⟨rfl, hpos⟩ := ptr_eq_some.mp hl.1
  rw [Allocator.search, if_neg (by omega), if_pos ⟨hfit.1, hfit.2⟩]

/-- The first block that fits, if there is one. -/
theorem fits_cases (a : Allocator) (n : Nat) (l : List Nat) :
    (∀ y ∈ l, ¬ Fits a n y) ∨ ∃ u c v, l = u ++ c :: v ∧ (∀ y ∈ u, ¬ Fits a n y) ∧ Fits a n c := by
  induction l with
  | nil => exact .inl fun y hy => absurd hy List.not_mem_nil
  | cons x l ih =>
      by_cases hx : Fits a n x
      · exact .inr ⟨[], x, l, rfl, fun y hy => absurd hy List.not_mem_nil, hx⟩
      · rcases ih with hno | ⟨u, c, v, rfl, hu, hc⟩
        · refine .inl fun y hy => ?_
          rcases List.mem_cons.mp hy with rfl | hy
          · exact hx
          · exact hno y hy
        · refine .inr ⟨x :: u, c, v, rfl, fun y hy => ?_, hc⟩
          rcases List.mem_cons.mp hy with rfl | hy
          · exact hx
          · exact hu y hy

/-- More rounds do not change what the loop finds. -/
theorem search_mono {r : Option (Nat × Nat)} (h : a.search n fuel prev curr = some r) (k : Nat) :
    a.search n (fuel + k) prev curr = some r := by
  induction fuel generalizing prev curr with
  | zero => cases h
  | succ fuel ih =>
      rw [show fuel + 1 + k = fuel + k + 1 by omega]
      rw [Allocator.search] at h ⊢
      by_cases hend : curr = 0
      · rw [if_pos hend] at h ⊢
        exact h
      rw [if_neg hend] at h ⊢
      by_cases hfit : a.isFree curr = true ∧ n ≤ a.size curr
      · rw [if_pos hfit] at h ⊢
        exact h
      rw [if_neg hfit] at h ⊢
      by_cases hwrap : a.prevSearchEnd ≠ 0 ∧ a.next curr = 0
      · rw [if_pos hwrap] at h ⊢
        exact ih h
      rw [if_neg hwrap] at h ⊢
      by_cases hstop : a.prevSearchEnd ≠ 0 ∧ a.next curr = a.next a.prevSearchEnd
      · rw [if_pos hstop] at h ⊢
        exact h
      · rw [if_neg hstop] at h ⊢
        exact ih h

theorem findFit_mono {r : Option (Nat × Nat)} (h : a.findFit fuel n = some r) (k : Nat) :
    a.findFit (fuel + k) n = some r := by
  rw [Allocator.findFit] at h ⊢
  by_cases hbytes : n ≤ a.availableBytes
  · rw [if_pos hbytes] at h ⊢
    by_cases hcur : a.prevSearchEnd ≠ 0 ∧ a.next a.prevSearchEnd ≠ 0
    · rw [if_pos hcur] at h ⊢
      exact search_mono h k
    · rw [if_neg hcur] at h ⊢
      exact search_mono h k
  · rw [if_neg hbytes] at h ⊢
    exact h

/-! ### The free list in a coherent state -/

namespace Coherent

theorem hasFit_iff (hc : Coherent a g loose) : a.HasFit n ↔ ∃ b ∈ g.free, n ≤ a.size b :=
  hc.exists_nthFree fun b => n ≤ a.size b

theorem fits_iff (hc : Coherent a g loose) (hb : b ∈ g.free) : Fits a n b ↔ n ≤ a.size b := by
  rw [Fits, hc.isFree_eq (hc.mem_blocks hb), hc.isFree_of_mem hb]
  exact and_iff_right rfl

/-- The list ends where `next` is null. -/
theorem next_last (hc : Coherent a g loose) (hl : g.free = u ++ [b]) : a.next b = 0 :=
  ptr_eq_none.mp (hl ▸ hc.walk).rest

theorem next_of_cons (hc : Coherent a g loose) (hl : g.free = u ++ b :: c :: v) :
    a.next b = c ∧ 0 < c := ptr_eq_some.mp (hl ▸ hc.walk).rest.1

/-- A node before another one is not the last. -/
theorem next_ne_zero (hc : Coherent a g loose) (hl : g.free = u ++ c :: v) (hb : b ∈ u) :
    a.next b ≠ 0 := by
  obtain ⟨u₁, u₂, rfl⟩ := List.append_of_mem hb
  cases u₂ with
  | nil =>
      have := hc.next_of_cons (u := u₁) (b := b) (c := c) (v := v) (by simp [hl])
      omega
  | cons y u₂ =>
      have := hc.next_of_cons (u := u₁) (b := b) (c := y) (v := u₂ ++ c :: v) (by simp [hl])
      omega

/-- No two nodes have one successor. -/
theorem next_ne (hc : Coherent a g loose) (hb : b ∈ g.free) (hcm : c ∈ g.free) (hne : b ≠ c) :
    a.next b ≠ a.next c := by
  intro h
  exact hc.walk.next_ne hb hcm hne (congrArg ptr h)

end Coherent

/-! ### The search -/

/-- Over blocks where it neither wraps nor gives up, the loop finds a block or passes. -/
theorem search_over (hl : Walk a curr (u ++ v))
    (hgo : ∀ y ∈ u, a.prevSearchEnd ≠ 0 →
      a.next y ≠ 0 ∧ a.next y ≠ a.next a.prevSearchEnd) (n prev : Nat) :
    (∃ fuel r, a.search n fuel prev curr = some (some r)) ∨
      ((∀ y ∈ u, ¬ Fits a n y) ∧ ∃ prev' curr', Walk a curr' v ∧
        ∀ fuel, a.search n (u.length + fuel) prev curr = a.search n fuel prev' curr') := by
  rcases fits_cases a n u with hno | ⟨u₁, c, u₂, rfl, hno, hfit⟩
  · exact .inr ⟨hno, search_skip hl hno hgo prev⟩
  · rw [List.append_assoc] at hl
    obtain ⟨prev', curr', hwalk, heq⟩ := search_skip hl hno
      (fun y hy => hgo y (List.mem_append_left _ hy)) prev
    exact .inl ⟨_, _, (heq 1).trans (search_hit hwalk hfit prev' 0)⟩

namespace Coherent

/-- Without a cursor the loop ends at the end of the list. -/
theorem search_null (hc : Coherent a g loose) (hcur : a.prevSearchEnd = 0) (n : Nat) :
    ∃ fuel r, a.search n fuel 0 a.freeList = some r ∧
      (r = none → ∀ b ∈ g.free, ¬ Fits a n b) := by
  have hl : Walk a a.freeList (g.free ++ []) := by
    rw [List.append_nil]
    exact hc.walk
  rcases search_over hl (fun _ _ h => absurd hcur h) n 0 with
    ⟨fuel, r, h⟩ | ⟨hno, prev', curr', hend, heq⟩
  · exact ⟨fuel, some r, h, fun hr => by cases hr⟩
  · refine ⟨g.free.length + 1, none, (heq 1).trans ?_, fun _ => hno⟩
    rw [Allocator.search, if_pos (ptr_eq_none.mp hend)]

/-- From behind a cursor that is not the last node the loop goes to the end, then from the head to
the cursor. -/
theorem search_cursor (hc : Coherent a g loose) (hcur : a.prevSearchEnd ≠ 0)
    (hnext : a.next a.prevSearchEnd ≠ 0) (n : Nat) :
    ∃ fuel r, a.search n fuel a.prevSearchEnd (a.next a.prevSearchEnd) = some r ∧
      (r = none → ∀ b ∈ g.free, ¬ Fits a n b) := by
  have hmem := hc.cursor.resolve_left hcur
  obtain ⟨l₁, l₂, hl⟩ := List.append_of_mem hmem
  have hnd : (l₁ ++ a.prevSearchEnd :: l₂).Nodup := hl ▸ hc.nodup
  obtain ⟨hnot, -⟩ := List.nodup_cons.mp (List.nodup_middle.mp hnd)
  have hgo : ∀ y ∈ l₁ ++ l₂, a.next y ≠ 0 →
      a.next y ≠ 0 ∧ a.next y ≠ a.next a.prevSearchEnd := fun y hy h =>
    ⟨h, hc.next_ne (hl ▸ List.mem_append.mpr ((List.mem_append.mp hy).imp id
      (List.mem_cons_of_mem _))) hmem fun h => hnot (h ▸ hy)⟩
  rcases List.eq_nil_or_concat l₂ with rfl | ⟨u, z, rfl⟩
  · exact absurd (hc.next_last hl) hnext
  rw [List.concat_eq_append] at *
  have hlast : a.next z = 0 := hc.next_last (u := l₁ ++ a.prevSearchEnd :: u) (by simp [hl])
  have hback : Walk a (a.next a.prevSearchEnd) (u ++ [z]) := (hl ▸ hc.walk).rest
  have hfront : Walk a a.freeList (l₁ ++ a.prevSearchEnd :: (u ++ [z])) := hl ▸ hc.walk
  -- first from behind the cursor up to the last node
  rcases search_over hback (fun y hy _ => hgo y (by simp [hy])
      (hc.next_ne_zero (u := l₁ ++ a.prevSearchEnd :: u) (c := z) (v := []) (by simp [hl])
        (by simp [hy]))) n a.prevSearchEnd with
    ⟨fuel, r, h⟩ | ⟨hno₂, prev₂, curr₂, hz, heq₂⟩
  · exact ⟨fuel, some r, h, fun hr => by cases hr⟩
  by_cases hfz : Fits a n z
  · exact ⟨_, _, (heq₂ 1).trans (search_hit hz hfz prev₂ 0), fun hr => by cases hr⟩
  obtain ⟨rfl, hzpos⟩ := ptr_eq_some.mp hz.1
  have hwrap : ∀ fuel, a.search n (fuel + 1) prev₂ curr₂ = a.search n fuel 0 a.freeList := by
    intro fuel
    have hfz' : ¬ (a.isFree curr₂ = true ∧ n ≤ a.size curr₂) := hfz
    rw [Allocator.search, if_neg (by omega), if_neg hfz', if_pos ⟨hcur, hlast⟩]
  -- then from the head up to the cursor
  rcases search_over hfront (fun y hy _ => hgo y (by simp [hy]) (hc.next_ne_zero hl hy)) n 0 with
    ⟨fuel, r, h⟩ | ⟨hno₁, prev₁, curr₁, hwalk, heq₁⟩
  · exact ⟨_, some r, (heq₂ (fuel + 1)).trans ((hwrap fuel).trans h), fun hr => by cases hr⟩
  by_cases hfp : Fits a n a.prevSearchEnd
  · exact ⟨_, _, (heq₂ _).trans ((hwrap _).trans ((heq₁ 1).trans (search_hit hwalk hfp prev₁ 0))),
      fun hr => by cases hr⟩
  obtain ⟨rfl, -⟩ := ptr_eq_some.mp hwalk.1
  refine ⟨_, none, (heq₂ _).trans ((hwrap _).trans ((heq₁ 1).trans ?_)), fun _ y hy => ?_⟩
  · have hfp' : ¬ (a.isFree a.prevSearchEnd = true ∧ n ≤ a.size a.prevSearchEnd) := hfp
    rw [Allocator.search, if_neg hcur, if_neg hfp', if_neg fun h => hnext h.2, if_pos ⟨hcur, rfl⟩]
  · rw [hl] at hy
    simp only [List.mem_append, List.mem_cons, List.not_mem_nil, or_false] at hy
    rcases hy with hy | rfl | hy | rfl
    · exact hno₁ y hy
    · exact hfp
    · exact hno₂ y hy
    · exact hfz

/-- From the head, with the cursor on the last node, the loop finds a block if there is one. -/
theorem search_last (hc : Coherent a g loose) (hnext : a.next a.prevSearchEnd = 0)
    (hfit : ∃ b ∈ g.free, Fits a n b) :
    ∃ fuel r, a.search n fuel 0 a.freeList = some (some r) := by
  obtain ⟨b, hb, hfit⟩ := hfit
  rcases fits_cases a n g.free with hno | ⟨u, c, v, hl, hno, hfitc⟩
  · exact absurd hfit (hno b hb)
  · obtain ⟨prev', curr', hwalk, heq⟩ := search_skip (hl ▸ hc.walk) hno (fun y hy _ => by
      have := hc.next_ne_zero hl hy
      rw [hnext]
      exact ⟨this, this⟩) 0
    exact ⟨_, _, (heq 1).trans (search_hit hwalk hfitc prev' 0)⟩

/-- …and goes round and round if there is none. -/
theorem search_round (hc : Coherent a g loose) (hcur : a.prevSearchEnd ≠ 0)
    (hnext : a.next a.prevSearchEnd = 0) (hno : ∀ b ∈ g.free, ¬ Fits a n b) (fuel : Nat) :
    ∀ prev curr, curr ∈ g.free → a.search n fuel prev curr = none := by
  have hhead : a.freeList ∈ g.free := by
    have hmem := hc.cursor.resolve_left hcur
    have hwalk := hc.walk
    cases hl : g.free with
    | nil =>
        rw [hl] at hmem
        cases hmem
    | cons x l =>
        rw [hl] at hwalk
        obtain ⟨h, -⟩ := ptr_eq_some.mp hwalk.1
        exact h ▸ List.mem_cons_self
  induction fuel with
  | zero => intro prev curr _; rfl
  | succ fuel ih =>
      intro prev curr hmem
      have hpos := hc.pos (hc.mem_blocks hmem)
      have hsmall : ¬ (a.isFree curr = true ∧ n ≤ a.size curr) := hno curr hmem
      rw [Allocator.search, if_neg (by omega), if_neg hsmall]
      by_cases hend : a.next curr = 0
      · rw [if_pos ⟨hcur, hend⟩]
        exact ih 0 a.freeList hhead
      · rw [if_neg fun h => hend h.2, if_neg fun h => hend (h.2.trans hnext)]
        refine ih curr (a.next curr) ?_
        obtain ⟨l₁, l₂, hl⟩ := List.append_of_mem hmem
        cases l₂ with
        | nil => exact absurd (hc.next_last hl) hend
        | cons y l₂ =>
            rw [(hc.next_of_cons hl).1]
            simp [hl]

end Coherent

/-! ### `allocate` -/

namespace Inv

/-- A block with `n` bytes shows in the count. -/
theorem le_bytes (hi : Inv a g) (h : a.HasFit n) : n ≤ a.availableBytes := by
  obtain ⟨b, hb, hfit⟩ := hi.coherent.hasFit_iff.mp h
  rw [hi.coherent.size_eq (hi.coherent.mem_blocks hb)] at hfit
  rw [hi.bytes]
  exact hfit.trans (List.le_sum_of_mem (List.mem_map_of_mem hb))

theorem no_fit (hi : Inv a g) : ¬ a.HasFit n ↔ ∀ b ∈ g.free, ¬ Fits a n b := by
  rw [hi.coherent.hasFit_iff]
  constructor
  · intro h b hb hfit
    exact h ⟨b, hb, (hi.coherent.fits_iff hb).mp hfit⟩
  · rintro h ⟨b, hb, hfit⟩
    exact h b hb ((hi.coherent.fits_iff hb).mpr hfit)

/-- Where it is not stuck, the search ends and misses no block. -/
theorem findFit_total (hi : Inv a g) (hns : ¬ a.Stuck n) :
    ∃ fuel r, a.findFit fuel n = some r ∧ (r = none → ¬ a.HasFit n) := by
  have hc := hi.coherent
  by_cases hbytes : n ≤ a.availableBytes
  · simp only [Allocator.findFit, if_pos hbytes, hi.no_fit]
    by_cases hcur : a.prevSearchEnd = 0
    · simp only [if_neg fun h : a.prevSearchEnd ≠ 0 ∧ _ => h.1 hcur]
      exact hc.search_null hcur n
    · by_cases hnext : a.next a.prevSearchEnd = 0
      · simp only [if_neg fun h : _ ∧ a.next a.prevSearchEnd ≠ 0 => h.2 hnext]
        have hfit : a.HasFit n := by
          by_contra hno
          exact hns ⟨hbytes, hcur, hnext, hno⟩
        obtain ⟨b, hb, hfit⟩ := hc.hasFit_iff.mp hfit
        obtain ⟨fuel, r, h⟩ := hc.search_last hnext ⟨b, hb, (hc.fits_iff hb).mpr hfit⟩
        exact ⟨fuel, some r, h, fun hr => by cases hr⟩
      · simp only [if_pos (⟨hcur, hnext⟩ : a.prevSearchEnd ≠ 0 ∧ a.next a.prevSearchEnd ≠ 0)]
        exact hc.search_cursor hcur hnext n
  · refine ⟨0, none, if_neg hbytes, fun _ hfit => hbytes (hi.le_bytes hfit)⟩

/-- Where it is stuck, no number of rounds is enough. -/
theorem findFit_stuck (hi : Inv a g) (hs : a.Stuck n) (fuel : Nat) : a.findFit fuel n = none := by
  obtain ⟨hbytes, hcur, hnext, hno⟩ := hs
  have hc := hi.coherent
  rw [Allocator.findFit, if_pos hbytes, if_neg fun h => h.2 hnext]
  have hmem := hc.cursor.resolve_left hcur
  have hwalk := hc.walk
  cases hl : g.free with
  | nil =>
      rw [hl] at hmem
      cases hmem
  | cons x l =>
      rw [hl] at hwalk
      obtain ⟨hhead, -⟩ := ptr_eq_some.mp hwalk.1
      exact hc.search_round hcur hnext (hi.no_fit.mp hno) fuel 0 _ (by simp [hhead, hl])

theorem searchComplete_iff (hi : Inv a g) (n : Nat) : a.SearchComplete n ↔ ¬ a.Stuck n := by
  constructor
  · rintro ⟨⟨fuel, h⟩, -⟩ hs
    rw [hi.findFit_stuck hs fuel] at h
    cases h
  · intro hns
    obtain ⟨fuel₀, r₀, h₀, hmiss⟩ := hi.findFit_total hns
    refine ⟨⟨fuel₀, by rw [h₀]; rfl⟩, fun hfit k fuel p a' h => ?_⟩
    obtain ⟨r, hr, h⟩ := Option.bind_eq_some_iff.mp h
    -- the two searches find the same
    obtain rfl : r = r₀ := by
      have h₁ := findFit_mono hr fuel₀
      have h₂ := findFit_mono h₀ fuel
      rw [Nat.add_comm, h₁] at h₂
      exact Option.some.inj h₂
    cases r with
    | none => exact absurd hfit (hmiss rfl)
    | some pc =>
        obtain ⟨q, c⟩ := pc
        obtain ⟨hn, l₁, l₂, hl, -⟩ := hi.coherent.findFit_spec hr
        have hcf : c ∈ g.free := by simp [hl]
        have heq : a.take n q c = (p, a') := Option.some.inj h
        have hp : p = c + headerSize := by
          rw [take_eq] at heq
          exact (Prod.mk.inj heq).1.symm
        constructor
        · rw [← take_os hi.coherent (hi.coherent.mem_blocks hcf) hn q, heq]
        · rw [← hi.coherent.size_eq (hi.coherent.mem_blocks hcf)] at hn
          exact (hi.coherent.exists_nthFree fun b => n ≤ a.size b ∧ p = b + headerSize).mpr
            ⟨c, hcf, hn, hp⟩

end Inv

/-! ### Runs -/

variable {w : World} {k : Kernel} {mem : Memory} {os : Os} {ss : List Step}

/-- **The next-fit search.**  After each run without wrapping sizes and for each request: the search
ends and is complete exactly if it does not happen that the count promises the bytes, no free block
has them, and the cursor is the last node of the list. -/
theorem search_complete_iff
    (r : World.system.Run (World.init k mem os) ss w) (hn : ∀ s ∈ ss, s.NoWrap) (n : Nat) :
    w.allocator.SearchComplete n ↔ ¬ w.allocator.Stuck n := by
  obtain ⟨g, hw⟩ := World.run_ok r hn
  exact hw.inv.searchComplete_iff n

/-- Blocks of 20, 20 and 300 bytes come back and stand on the list in the order 20, 20, 300; then
the 300 bytes are taken again, and the cursor is the last node, of 20 bytes. -/
def stuckSteps : List Step :=
  let k : Kernel := ⟨true, true, true, none⟩
  [⟨.allocate 4096, 9, k⟩, ⟨.allocate 300, 9, k⟩, ⟨.allocate 8, 9, k⟩, ⟨.allocate 20, 9, k⟩,
    ⟨.allocate 8, 9, k⟩, ⟨.allocate 20, 9, k⟩, ⟨.allocate 8, 9, k⟩, ⟨.deallocate 8256, 9, k⟩,
    ⟨.deallocate 8644, 9, k⟩, ⟨.deallocate 8752, 9, k⟩, ⟨.allocate 300, 9, k⟩]

theorem not_hasFit_of_two (h₀ : a.size (a.nthFree 0) < n) (h₁ : a.size (a.nthFree 1) < n)
    (h₂ : a.nthFree 2 = 0) : ¬ a.HasFit n := by
  rintro ⟨i, hne, hfit⟩
  cases i with
  | zero => exact absurd hfit (not_le.mpr h₀)
  | succ i =>
      cases i with
      | zero => exact absurd hfit (not_le.mpr h₁)
      | succ i => exact hne (nthFree_of_le h₂ (Nat.le_add_left 2 i))

/-- After these calls the search for 30 bytes does not end. -/
theorem search_complete_fails : ∃ w : World,
    World.system.Run (World.init ⟨true, true, true, none⟩ .zero sampleOs) stuckSteps w ∧
      (∀ s ∈ stuckSteps, s.NoWrap) ∧ (∀ fuel, w.allocator.findFit fuel 30 = none) ∧
      ¬ w.allocator.SearchComplete 30 := by
  have h : (World.system.replay (World.init ⟨true, true, true, none⟩ .zero sampleOs)
      stuckSteps).map (fun w => (decide (30 ≤ w.allocator.availableBytes ∧
        w.allocator.prevSearchEnd ≠ 0 ∧ w.allocator.next w.allocator.prevSearchEnd = 0 ∧
        w.allocator.nthFree 2 = 0 ∧ w.allocator.size (w.allocator.nthFree 0) < 30 ∧
        w.allocator.size (w.allocator.nthFree 1) < 30))) = some true := by
    decide +kernel
  obtain ⟨w, hw, hend⟩ := Option.map_eq_some_iff.mp h
  obtain ⟨hbytes, hcur, hnext, h₂, h₀, h₁⟩ := of_decide_eq_true hend
  have hrun := System.Run.of_replay hw
  have hwrap : ∀ s ∈ stuckSteps, s.NoWrap := by decide
  obtain ⟨g, hok⟩ := World.run_ok hrun hwrap
  have hstuck := hok.inv.findFit_stuck ⟨hbytes, hcur, hnext, not_hasFit_of_two h₀ h₁ h₂⟩
  refine ⟨w, hrun, hwrap, hstuck, fun hcomplete => ?_⟩
  obtain ⟨fuel, hf⟩ := hcomplete.ends
  rw [hstuck fuel] at hf
  cases hf

theorem search_complete_sample : ∃ w : World, w.allocator.prevSearchEnd = 0 ∧
    w.allocator.SearchComplete 30 := by
  have h : (World.system.replay (World.init ⟨true, true, true, none⟩ .zero sampleOs)
      sampleSteps).map (fun w => w.allocator.prevSearchEnd) = some 0 := by
    decide +kernel
  obtain ⟨w, hw, hcur⟩ := Option.map_eq_some_iff.mp h
  refine ⟨w, hcur, (search_complete_iff (System.Run.of_replay hw) (by decide) 30).mpr fun hs => ?_⟩
  exact hs.2.1 hcur

end TieredAllocator.Old
