import TieredAllocator.PageHeap.Coalesce

/-!
# Page heap — the operations

One specification for each public operation: from the invariant at rest, the call is defined, it
keeps the invariant, and what it did to the extents and to the spans in use is said in full
(`allocateSpan_spec`, `returnSpan_spec`, `deallocateSpan_spec`).
-/

namespace TieredAllocator

/-! ### The operating system -/

namespace Os

variable {os : Os} {k : Kernel} {n start q : Nat}

/-- A successful `mmap` returns a range inside the address space that was not mapped. -/
theorem mmap_fresh (h : (os.mmap k n).1 = some start) :
    0 < start ∧ start + n ≤ pageLimit ∧ ∀ q, start ≤ q → q < start + n → os.mapped q = false := by
  simp only [mmap, Option.filter_eq_some_iff, fresh, Bool.and_eq_true, decide_eq_true_eq,
    List.all_eq_true, List.mem_range, Bool.not_eq_true'] at h
  obtain ⟨-, ⟨h₁, h₂⟩, h₃⟩ := h
  refine ⟨h₁, h₂, fun q hq₁ hq₂ => ?_⟩
  have := h₃ (q - start) (by omega)
  rwa [show start + (q - start) = q by omega] at this

theorem owned_mmap_some (h : (os.mmap k n).1 = some start) :
    (os.mmap k n).2.owned q = (decide (start ≤ q ∧ q < start + n) || os.owned q) := by
  have h' : (os.mmap k n).2.trace = .mmap n (some start) :: os.trace := by
    rw [← h]; rfl
  simp [owned, h', ownedBy]

theorem owned_mmap_none (h : (os.mmap k n).1 = none) : (os.mmap k n).2.owned q = os.owned q := by
  have h' : (os.mmap k n).2.trace = .mmap n none :: os.trace := by
    rw [← h]; rfl
  simp [owned, h', ownedBy]

theorem owned_munmap : (os.munmap start n).owned q =
    (!decide (start ≤ q ∧ q < start + n) && os.owned q) := by
  simp [owned, munmap, ownedBy]

end Os

namespace PageHeap
open Lib

variable {h h' : PageHeap} {P : SpanId → Prop} {L : Nat → List SpanId} {s t : SpanId}
  {x y : Span} {k : Kernel} {n size i : Nat}

/-- No span is in flight. -/
abbrev Rest : SpanId → Prop := fun _ => False

/-! ### The search -/

/-- A walk over spans of size 0 keeps a best difference that is no larger than `size`. -/
theorem searchList_keep {spans : SpanId → Option Span} {p head best : Option SpanId}
    {l : List SpanId} {fuel bestDiff : Nat}
    (hl : Linked (nextOf spans) (prevOf spans) p head l)
    (hex : ∀ t ∈ l, ∃ y, spans t = some y ∧ y.size = 0) (hf : l.length < fuel)
    (hd : bestDiff ≤ size) (hpos : 0 < size) :
    searchList spans size fuel head best bestDiff = some best := by
  induction l generalizing p head fuel with
  | nil =>
      obtain ⟨f, rfl⟩ : ∃ f, fuel = f + 1 := ⟨fuel - 1, by simp at hf; omega⟩
      obtain rfl := hl
      rfl
  | cons c cs ih =>
      obtain ⟨f, rfl⟩ : ∃ f, fuel = f + 1 := ⟨fuel - 1, by simp at hf; omega⟩
      obtain ⟨rfl, -, hcs⟩ := hl
      obtain ⟨y, hy, hy₀⟩ := hex c (by simp)
      rw [nextOf_eq hy] at hcs
      have := ih hcs (fun t ht => hex t (by simp [ht])) (by simpa using hf)
      simp only [searchList, hy, hy₀, Option.bind_eq_bind, Option.bind_some, Nat.not_lt_zero,
        if_false, Nat.sub_zero, if_neg (not_lt.mpr hd), if_neg hpos.ne', this]

/-- All differences are equal, so the walk over a free list picks its first span, unless the size
asked for is `UINT32_MAX`. -/
theorem searchList_spec {spans : SpanId → Option Span} {c : SpanId} {cs : List SpanId}
    {fuel : Nat} (hl : Linked (nextOf spans) (prevOf spans) none (some c) (c :: cs))
    (hex : ∀ t ∈ c :: cs, ∃ y, spans t = some y ∧ y.size = 0) (hf : (c :: cs).length < fuel) :
    searchList spans size fuel (some c) none uint32Max =
      some (if size < uint32Max then some c else none) := by
  obtain ⟨f, rfl⟩ : ∃ f, fuel = f + 1 := ⟨fuel - 1, by simp at hf; omega⟩
  obtain ⟨-, -, hcs⟩ := hl
  obtain ⟨y, hy, hy₀⟩ := hex c (by simp)
  rw [nextOf_eq hy] at hcs
  simp only [searchList, hy, hy₀, Option.bind_eq_bind, Option.bind_some, Nat.not_lt_zero,
    if_false, Nat.sub_zero]
  have hmax : 0 < uint32Max := by decide
  by_cases hlt : size < uint32Max
  · simp only [if_pos hlt]
    by_cases h0 : size = 0
    · rw [if_pos h0]
    · rw [if_neg h0]
      exact searchList_keep hcs (fun t ht => hex t (by simp [ht])) (by simpa using hf) (le_refl _)
        (by omega)
  · simp only [if_neg hlt]
    rw [if_neg (by omega)]
    exact searchList_keep hcs (fun t ht => hex t (by simp [ht])) (by simpa using hf) (by omega)
      (by omega)

theorem Inv.length_lt (hi : Inv P h L) : (L i).length < h.walkFuel := by
  refine Nat.lt_succ_of_le (length_le_of_nodup_lt (hi.list i).nodup fun t ht => ?_)
  obtain ⟨x, hx⟩ := (hi.list i).exist t ht
  exact hi.ids t x hx

theorem Inv.searchList_head (hi : Inv P h L) (size : Nat) {c : SpanId} {cs : List SpanId}
    (hL : L i = c :: cs) :
    h.freeLists i = some c ∧ searchList h.spans size h.walkFuel (some c) none uint32Max =
      some (if size < uint32Max then some c else none) := by
  have hhead := (hi.list i).linked.head_eq
  have hlen := hi.length_lt (i := i)
  have hlinked := (hi.list i).linked
  rw [hL, List.head?_cons] at hhead
  rw [hhead, hL] at hlinked
  rw [hL] at hlen
  refine ⟨hhead, searchList_spec hlinked (fun t ht => ?_) hlen⟩
  rw [← hL] at ht
  obtain ⟨y, hy⟩ := (hi.list i).exist t ht
  exact ⟨y, hy, (hi.listed i t y ht hy).2.2⟩

theorem Inv.freeLists_nil (hi : Inv P h L) (hL : L i = []) : h.freeLists i = none := by
  have hhead := (hi.list i).linked.head_eq
  rwa [hL] at hhead

/-- **The search** takes the first span of the first non-empty list. -/
theorem searchLists_spec (hi : Inv P h L) (hlt : size < uint32Max) :
    ∀ (n i : Nat), ∃ r, h.searchLists size n i = some r ∧
      (r = none → ∀ j, i ≤ j → j < i + n → L j = []) ∧
      (∀ s, r = some s → ∃ j, i ≤ j ∧ j < i + n ∧ (L j).head? = some s ∧
        ∀ k, i ≤ k → k < j → L k = [])
  | 0, i => ⟨none, rfl, fun _ j h₁ h₂ => by omega, by simp⟩
  | n + 1, i => by
      cases hL : L i with
      | nil =>
          obtain ⟨r, hr, hnone, hsome⟩ := searchLists_spec hi hlt n (i + 1)
          have below : ∀ {j}, i ≤ j → (i + 1 ≤ j → L j = []) → L j = [] := fun {j} h₁ h₂ => by
            by_cases e : j = i
            · rw [e, hL]
            · exact h₂ (by omega)
          refine ⟨r, by simp only [searchLists, hi.freeLists_nil hL, hr],
            fun hr' j h₁ h₂ => below h₁ fun h => hnone hr' j h (by omega), fun s hs => ?_⟩
          obtain ⟨j, h₁, h₂, h₃, h₄⟩ := hsome s hs
          exact ⟨j, by omega, by omega, h₃, fun k hk₁ hk₂ => below hk₁ fun h => h₄ k h hk₂⟩
      | cons c cs =>
          obtain ⟨hhead, hsearch⟩ := hi.searchList_head size hL
          rw [if_pos hlt] at hsearch
          refine ⟨some c, by simp [searchLists, hhead, hsearch], by simp, fun s hs => ?_⟩
          exact ⟨i, le_refl _, by omega, by rw [hL]; simpa using hs, fun k h₁ h₂ => by omega⟩

/-- No difference is below `UINT32_MAX` for that size, so the search picks nothing. -/
theorem searchLists_max (hi : Inv P h L) (hge : uint32Max ≤ size) :
    ∀ (n i : Nat), h.searchLists size n i = some none
  | 0, _ => rfl
  | n + 1, i => by
      have ih := searchLists_max hi hge n (i + 1)
      cases hL : L i with
      | nil => simp only [searchLists, hi.freeLists_nil hL, ih]
      | cons c cs =>
          obtain ⟨hhead, hsearch⟩ := hi.searchList_head size hL
          rw [if_neg (by omega)] at hsearch
          simp [searchLists, hhead, hsearch, ih]

/-! ### allocate_span -/

/-- The free span `x` is the shortest, and then the first, of those with `n` pages or more. -/
def BestFit (h : PageHeap) (n : Nat) (x : Span) : Prop :=
  n ≤ x.numPages ∧ ∀ t y, h.spans t = some y → y.isFree = true → n ≤ y.numPages →
    x.numPages < y.numPages ∨ (x.numPages = y.numPages ∧ x.start ≤ y.start)

/-- What `allocate_span` can do. -/
inductive Allocated (k : Kernel) (h : PageHeap) (n size : Nat) :
    Option SpanId → PageHeap → Prop where
  /-- the page count is out of range -/
  | rejected : n = 0 ∨ maxPages < n → Allocated k h n size none h
  /-- a free span gives its first pages -/
  | reused {s : SpanId} {x : Span} {h' : PageHeap} :
      0 < n → size < uint32Max → h.spans s = some x → x.isFree = true → BestFit h n x →
      h'.spans s = some { x with
        numPages := n, next := none, prev := none, size := size, isFree := false } →
      Keeps h h' s → h'.os = h.os →
      (x.numPages = n ∧ h'.ext = Function.update h.ext s (some ⟨x.start, n, false⟩) ∨
        n < x.numPages ∧ h'.ext = Function.update
          (Function.update h.ext h.nextId (some ⟨x.start + n, x.numPages - n, true⟩)) s
          (some ⟨x.start, n, false⟩)) →
      Allocated k h n size (some s) h'
  /-- no free span fits, and the kernel maps fresh pages -/
  | mapped {start : Nat} {h' : PageHeap} :
      (size < uint32Max → ∀ t y, h.spans t = some y → y.isFree = true → y.numPages < n) →
      (h.os.mmap k n).1 = some start →
      h'.spans h.nextId = some { start := start, numPages := n, size := size } →
      Keeps h h' h.nextId → h'.os = (h.os.mmap k n).2 →
      h'.ext = Function.update h.ext h.nextId (some ⟨start, n, false⟩) →
      Allocated k h n size (some h.nextId) h'
  /-- no free span fits, and the kernel refuses -/
  | failed {h' : PageHeap} :
      (size < uint32Max → ∀ t y, h.spans t = some y → y.isFree = true → y.numPages < n) →
      (h.os.mmap k n).1 = none → h' = { h with os := (h.os.mmap k n).2 } →
      Allocated k h n size none h'

/-- No list from `n` on holds a span, so no free span has `n` pages. -/
theorem Inv.no_fit (hi : Inv Rest h L) (hnil : ∀ j, n ≤ j → j < n + (maxPages + 1 - n) → L j = []) :
    ∀ t y, h.spans t = some y → y.isFree = true → y.numPages < n := fun t y hy hf => by
  by_contra hlt
  have hmem := hi.complete t y hy (by simp) hf
  have hle := hi.small t y hy (by simp)
  rw [hnil y.numPages (by omega) (by omega)] at hmem
  simp at hmem

/-- The first span of the first non-empty list is the best fit. -/
theorem Inv.bestFit {j : Nat} (hi : Inv Rest h L) (hn : n ≤ j) (hhead : (L j).head? = some s)
    (hbelow : ∀ k, n ≤ k → k < j → L k = []) (hx : h.spans s = some x) : BestFit h n x := by
  have hs : s ∈ L j := List.mem_of_mem_head? hhead
  obtain rfl := hi.mem_list hs hx
  refine ⟨hn, fun t y hy hf hle => ?_⟩
  have ht := hi.complete t y hy (by simp) hf
  rcases Nat.lt_trichotomy x.numPages y.numPages with hlt | heq | hgt
  · exact .inl hlt
  · refine .inr ⟨heq, ?_⟩
    rw [← heq] at ht
    cases hL : L x.numPages with
    | nil => rw [hL] at ht; simp at ht
    | cons c cs =>
        rw [hL] at hhead ht
        obtain rfl : c = s := by simpa using hhead
        rcases List.mem_cons.mp ht with rfl | ht
        · obtain rfl := Option.some.inj (hx.symm.trans hy)
          exact le_refl _
        · have hinc := hi.increasing x.numPages
          rw [hL] at hinc
          exact ((List.pairwise_cons.mp hinc).1 t ht x y hx hy).le
  · rw [hbelow y.numPages hle hgt] at ht
    simp at ht

theorem allocateSpan_reuse (hi : Inv Rest h L) (hx : h.spans s = some x) (hs : s ∈ L x.numPages)
    (hn : 0 < n) (hlts : size < uint32Max) (hfit : BestFit h n x)
    (hres : h.searchLists size (maxPages + 1 - n) n = some (some s)) (hle : n ≤ maxPages) :
    ∃ h' L', h.allocateSpan k n size = some (some s, h') ∧ Inv Rest h' L' ∧
      Allocated k h n size (some s) h' := by
  have hfree := (hi.listed _ s x hs hx).1
  obtain ⟨h₁, hrem, hi₁, hpm, hos, hnext, hself, hdata, hoff⟩ := removeFromFreeList_spec hi hs hx
  have hoffs : ∀ i, s ∉ Function.update L x.numPages ((L x.numPages).erase s) i := fun i =>
    hi₁.not_mem_of_used hself rfl
  let x₂ : Span := { x with next := none, prev := none, isFree := false, size := size }
  have hi₂ : Inv Rest (h₁.set s x₂) (Function.update L x.numPages ((L x.numPages).erase s)) :=
    hi₁.set hself hoffs rfl rfl (by simp) (by simp [x₂])
  have hx₂ : (h₁.set s x₂).spans s = some x₂ := by simp [PageHeap.set]
  have hkeep₁ : Keeps h (h₁.set s x₂) s := by
    refine Keeps.of_offList (i := x.numPages) hi (fun t ht => ?_) fun t ht hts => ?_
    · simp only [PageHeap.set, Function.update_of_ne ht]
      exact hdata t ht
    · simp only [PageHeap.set, Function.update_of_ne ht]
      exact hoff t hts
  have hext₂ : (h₁.set s x₂).ext = Function.update h.ext s (some x₂.extent) := by
    funext t
    by_cases ht : t = s
    · subst ht; rw [Function.update_self, ext_eq hx₂]
    · rw [Function.update_of_ne ht, ← ext_of_data (hdata t ht)]
      simp only [ext, PageHeap.set, Function.update_of_ne ht]
  have hlt' : ¬ (n = 0 ∨ maxPages < n) := by omega
  rcases Nat.lt_or_ge n x.numPages with hlt | hge
  · obtain ⟨h', L', hsplit, hinv, hs', hkeep, hos', hext⟩ := split_spec hi₂ hx₂ rfl hn hlt
    refine ⟨h', L', ?_, hinv, .reused hn hlts hx hfree hfit hs' (hkeep₁.trans hkeep)
      (hos'.trans hos) (.inr ⟨hlt, ?_⟩)⟩
    · simp [allocateSpan, hlt', hres, hrem, hself, hlt, hsplit, x₂]
    · rw [hext, hext₂, show (h₁.set s x₂).nextId = h.nextId from hnext,
        Function.update_comm (hi.ids s x hx).ne, Function.update_idem]
  · obtain rfl : x.numPages = n := le_antisymm hge hfit.1
    refine ⟨h₁.set s x₂, _, ?_, hi₂,
      .reused hn hlts hx hfree hfit ?_ hkeep₁ hos (.inl ⟨rfl, hext₂⟩)⟩
    · simp [allocateSpan, hlt', hres, hrem, hself, x₂]
    · exact hx₂

theorem allocateSpan_map (hi : Inv Rest h L) (hn : 0 < n) (hle : n ≤ maxPages)
    (hres : h.searchLists size (maxPages + 1 - n) n = some none)
    (hno : size < uint32Max → ∀ t y, h.spans t = some y → y.isFree = true → y.numPages < n) :
    ∃ r h' L', h.allocateSpan k n size = some (r, h') ∧ Inv Rest h' L' ∧
      Allocated k h n size r h' := by
  have hlt' : ¬ (n = 0 ∨ maxPages < n) := by omega
  cases hm : (h.os.mmap k n).1 with
  | none =>
      refine ⟨none, _, L, ?_, ?_, .failed hno hm rfl⟩
      · simp only [allocateSpan, if_neg hlt', hres, Option.bind_eq_bind, Option.bind_some, hm]
      · exact ⟨hi.list, hi.increasing, hi.listed, hi.short, hi.pending, hi.complete, hi.small,
          hi.bounds, hi.ids, hi.exact, fun q => by rw [Os.owned_mmap_none hm]; exact hi.owned q⟩
  | some start =>
      obtain ⟨hpos, hlim, hfresh⟩ := Os.mmap_fresh hm
      let y : Span := { start := start, numPages := n, size := size }
      let h' : PageHeap :=
        { h with
          spans := Function.update h.spans h.nextId (some y)
          nextId := h.nextId + 1
          pageMap := fill h.pageMap start n (some h.nextId)
          os := (h.os.mmap k n).2 }
      have hnew : h.spans h.nextId = none := by
        by_contra hne
        obtain ⟨w, hw⟩ := Option.ne_none_iff_exists'.mp hne
        exact lt_irrefl _ (hi.ids _ w hw)
      have hspans : ∀ t, t ≠ h.nextId → h'.spans t = h.spans t := fun t ht => by simp [h', ht]
      have hself : h'.spans h.nextId = some y := by simp [h']
      have hcases : ∀ t w, h'.spans t = some w →
          (t = h.nextId ∧ w = y) ∨ (t ≠ h.nextId ∧ h.spans t = some w) := fun t w hw => by
        by_cases ht : t = h.nextId
        · subst ht; exact .inl ⟨rfl, (Option.some.inj (hself.symm.trans hw)).symm⟩
        · exact .inr ⟨ht, hspans t ht ▸ hw⟩
      have hext : h'.ext = Function.update h.ext h.nextId (some ⟨start, n, false⟩) := by
        funext t
        by_cases ht : t = h.nextId
        · subst ht; rw [Function.update_self, ext_eq hself]; rfl
        · rw [Function.update_of_ne ht]; simp only [ext, hspans t ht]
      have hunmapped : ∀ q, start ≤ q → q < start + n → h.pageMap q = none := fun q h₁ h₂ => by
        have := hfresh q h₁ h₂
        rw [Os.mapped, Bool.or_eq_false_iff, ← hi.owned q] at this
        simpa using this.2
      refine ⟨some h.nextId, h', L, ?_, ?_, .mapped hno hm hself (fun t w ht _ => ?_) rfl hext⟩
      · simp [allocateSpan, hlt', hres, hm, PageHeap.new, registerSpan, setPages_eq, h', y]
      · refine hi.of_offList rfl (fun i t ht => hspans t ?_) (fun t i ht => ht.elim)
          (fun t w hw _ hf => ?_) (fun t w hw _ => ?_) (fun t w hw => ?_) (fun t w hw => ?_) ?_
          (fun q => ?_)
        · rintro rfl
          obtain ⟨w, hw⟩ := (hi.list i).exist _ ht
          rw [hnew] at hw
          cases hw
        · rcases hcases t w hw with ⟨-, rfl⟩ | ⟨-, hw'⟩
          · cases hf
          · exact hi.complete t w hw' (by simp) hf
        · rcases hcases t w hw with ⟨-, rfl⟩ | ⟨-, hw'⟩
          · exact hle
          · exact hi.small t w hw' (by simp)
        · rcases hcases t w hw with ⟨-, rfl⟩ | ⟨-, hw'⟩
          · exact ⟨hpos, hn, hlim⟩
          · exact hi.bounds t w hw'
        · rcases hcases t w hw with ⟨rfl, -⟩ | ⟨-, hw'⟩
          · exact Nat.lt_succ_self _
          · exact Nat.lt_succ_of_lt (hi.ids t w hw')
        · rw [hext]
          exact hi.exact.enter (i := h.nextId) (e := ⟨start, n, false⟩) (by simp [ext, hnew])
            fun q hq j => hi.exact.none_iff.mp (hunmapped q hq.1 hq.2) j
        · rw [Os.owned_mmap_some hm, ← hi.owned q]
          by_cases hq : start ≤ q ∧ q < start + n
          · simp [h', fill, hq]
          · simp [h', fill, hq]
      · rw [hspans t ht]

/-- **`allocate_span`.** -/
theorem allocateSpan_spec (hi : Inv Rest h L) (k : Kernel) (n size : Nat) :
    ∃ r h' L', h.allocateSpan k n size = some (r, h') ∧ Inv Rest h' L' ∧
      Allocated k h n size r h' := by
  by_cases hn : n = 0 ∨ maxPages < n
  · exact ⟨none, h, L, by simp [allocateSpan, hn], hi, .rejected hn⟩
  · have hpos : 0 < n ∧ n ≤ maxPages := by omega
    by_cases hlt : size < uint32Max
    · obtain ⟨r, hr, hnone, hsome⟩ := searchLists_spec hi hlt (maxPages + 1 - n) n
      cases r with
      | none =>
          exact allocateSpan_map hi hpos.1 hpos.2 hr fun _ => hi.no_fit (hnone rfl)
      | some s =>
          obtain ⟨j, h₁, h₂, h₃, h₄⟩ := hsome s rfl
          have hs : s ∈ L j := List.mem_of_mem_head? h₃
          obtain ⟨x, hx⟩ := (hi.list j).exist s hs
          have hfit := hi.bestFit h₁ h₃ h₄ hx
          rw [← hi.mem_list hs hx] at hs
          obtain ⟨h', L', hres, hinv, hall⟩ :=
            allocateSpan_reuse (k := k) hi hx hs hpos.1 hlt hfit hr hpos.2
          exact ⟨some s, h', L', hres, hinv, hall⟩
    · exact allocateSpan_map hi hpos.1 hpos.2 (searchLists_max hi (not_lt.mp hlt) _ _)
        fun h => absurd h hlt

/-! ### return_span -/

/-- What `return_span` does to the extents: the span becomes free, absorbs a free neighbour on
each side, and is carved. -/
def Returned (s f : Nat) (E E' : Extents Nat) : Prop :=
  ∃ e E₁ E₂ n, E s = some e ∧
    JoinLeft s (Function.update E s (some ⟨e.start, e.len, true⟩)) E₁ ∧ JoinRight s E₁ E₂ ∧
    Carved s f E₂ E' n

/-- **`return_span`** of a span in use. -/
theorem returnSpan_spec (hi : Inv Rest h L) (hx : h.spans s = some x) (hu : x.isFree = false) :
    ∃ h' L', h.returnSpan (some s) = some h' ∧ Inv Rest h' L' ∧ Keeps h h' s ∧
      (∀ y, h'.spans s = some y → y.isFree = true) ∧ h'.os = h.os ∧
      Returned s h.nextId h.ext h'.ext := by
  let x₀ : Span := { x with isFree := true, size := 0 }
  have hi₀ : Inv (· = s) (h.set s x₀) L :=
    hi.set hx (fun i => hi.not_mem_of_used hx hu) rfl rfl
      (fun t ht => by simp [ht]) (fun h => absurd rfl h)
  have hx₀ : (h.set s x₀).spans s = some x₀ := by simp [PageHeap.set]
  have hext₀ : (h.set s x₀).ext =
      Function.update h.ext s (some ⟨x.start, x.numPages, true⟩) := by
    funext t
    by_cases ht : t = s
    · subst ht; rw [Function.update_self, ext_eq hx₀]; rfl
    · rw [Function.update_of_ne ht]
      simp only [ext, PageHeap.set, Function.update_of_ne ht]
  have hkeep₀ : Keeps h (h.set s x₀) s := fun t w ht _ => by simp [PageHeap.set, ht]
  obtain ⟨h₁, L₁, x₁, hc₁, hf₁, hj₁, hn₁⟩ := coalesceLeft_spec hi₀ hx₀ rfl rfl
  obtain ⟨h₂, L₂, x₂, hc₂, hf₂, hj₂, hn₂⟩ := coalesceRight_spec hf₁.inv hf₁.holds hf₁.free hf₁.size
  obtain ⟨h₃, L₃, x₃, n, hc₃, hf₃, hle, hcarved, -⟩ := carve_spec (x₂.numPages + 1) hf₂.inv
    hf₂.holds hf₂.free hf₂.size (Nat.lt_succ_self _)
  obtain ⟨h', L', hins, hinv, hpm, hos, -, hext, hkeep, -, p, c, hself⟩ :=
    insert_inv hf₃.inv rfl hf₃.holds hf₃.size hle hf₃.free
  have hnext : h₂.nextId = h.nextId := hn₂.trans hn₁
  refine ⟨h', L', ?_, hinv.congrP fun t => by simp,
    ((hkeep₀.trans hf₁.keeps).trans hf₂.keeps).trans (hf₃.keeps.trans hkeep), fun y hy => ?_,
    hos.trans (hf₃.os.trans (hf₂.os.trans hf₁.os)), x.extent, h₁.ext, h₂.ext, n, ext_eq hx, ?_, hj₂,
    ?_⟩
  · have hco : (h.set s x₀).coalesce s = some h₂ := by
      simp only [coalesce, hc₁, Option.bind_eq_bind, Option.bind_some, hc₂]
    simp only [x₀] at hco
    simp only [returnSpan, hx, Option.bind_eq_bind, Option.bind_some, hco, hf₂.holds, hc₃,
      hf₃.holds, hins]
  · obtain rfl := Option.some.inj (hself.symm.trans hy)
    rfl
  · rw [hext₀] at hj₁
    exact hj₁
  · rw [hext, ← hnext]
    exact hcarved

/-! ### deallocate_span -/

/-- `deallocate_span` of a span that is on no list. -/
theorem deallocateSpan_off (hi : Inv Rest h L) (hx : h.spans s = some x) (hu : x.isFree = false) :
    let h' : PageHeap :=
      { h with
        spans := Function.update h.spans s none
        pageMap := fill h.pageMap x.start x.numPages none
        os := h.os.munmap x.start x.numPages }
    Inv Rest h' L ∧ h'.ext = Function.update h.ext s none := by
  intro h'
  have hspans : ∀ t, t ≠ s → h'.spans t = h.spans t := fun t ht => by simp [h', ht]
  have hself : h'.spans s = none := by simp [h']
  have hcases : ∀ {t w}, h'.spans t = some w → h.spans t = some w := fun {t w} hw => by
    by_cases ht : t = s
    · subst ht; rw [hself] at hw; cases hw
    · rwa [hspans t ht] at hw
  have hext : h'.ext = Function.update h.ext s none := by
    funext t
    by_cases ht : t = s
    · subst ht; simp [ext, hself]
    · rw [Function.update_of_ne ht]; simp only [ext, hspans t ht]
  refine ⟨hi.of_offList rfl (fun i t ht => hspans t fun e => hi.not_mem_of_used hx hu (e ▸ ht))
    (fun t i ht => ht.elim) (fun t w hw => hi.complete t w (hcases hw))
    (fun t w hw => hi.small t w (hcases hw)) (fun t w hw => hi.bounds t w (hcases hw))
    (fun t w hw => hi.ids t w (hcases hw)) ?_ fun q => ?_, hext⟩
  · rw [hext]
    exact hi.exact.erase (ext_eq hx)
  · rw [Os.owned_munmap, ← hi.owned q]
    by_cases hq : x.start ≤ q ∧ q < x.start + x.numPages
    · simp [h', fill, hq]
    · simp [h', fill, hq]

/-- **`deallocate_span`** of any existing span. -/
theorem deallocateSpan_spec (hi : Inv Rest h L) (hx : h.spans s = some x) :
    ∃ h' L', h.deallocateSpan (some s) = some (true, h') ∧ Inv Rest h' L' ∧ Keeps h h' s ∧
      h'.spans s = none ∧ h'.os = h.os.munmap x.start x.numPages ∧
      h'.ext = Function.update h.ext s none := by
  cases hf : x.isFree with
  | false =>
      obtain ⟨hinv, hext⟩ := deallocateSpan_off hi hx hf
      exact ⟨_, L, by simp [deallocateSpan, hx, hf, unregisterSpan, setPages_eq, delete], hinv,
        fun t w ht _ => by simp [ht], by simp, rfl, hext⟩
  | true =>
      have hs := hi.complete s x hx (by simp) hf
      obtain ⟨h₁, hrem, hi₁, hpm, hos, -, hself, hdata, hoff⟩ := removeFromFreeList_spec hi hs hx
      obtain ⟨hinv, hext⟩ := deallocateSpan_off hi₁ hself rfl
      have hkeep : Keeps h h₁ s := Keeps.of_offList hi hdata fun t _ ht => hoff t ht
      refine ⟨_, _, by simp [deallocateSpan, hx, hf, hrem, unregisterSpan, setPages_eq, delete,
        hself], hinv, fun t w ht hw => ?_, by simp, by rw [hos], ?_⟩
      · simpa [ht] using hkeep t w ht hw
      · rw [hext]
        funext t
        by_cases ht : t = s
        · subst ht; simp
        · rw [Function.update_of_ne ht, Function.update_of_ne ht, ext_of_data (hdata t ht)]

end PageHeap

end TieredAllocator
