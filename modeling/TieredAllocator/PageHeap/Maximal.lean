import TieredAllocator.PageHeap.Runs

/-!
# Page heap — maximal coalescing

Two adjacent free spans that fit into `MAX_PAGES` together are not always merged: carving an
oversize span, and splitting one, look at no neighbour of the last piece.  `Tight` is the
property, `Settles` the condition under which a call keeps it: the last piece has no free span
on its right that it fits together with.  The property holds throughout a run exactly when each
call settles (`tight_throughout_iff`).
-/

namespace TieredAllocator.PageHeap
open Lib

variable {h h' : PageHeap} {L : Nat → List SpanId} {s t : SpanId} {x y : Span} {n size : Nat}
  {k : Kernel}

/-- No two adjacent free spans fit together in one span. -/
def Tight (h : PageHeap) : Prop :=
  ∀ s t x y, s ≠ t → h.spans s = some x → h.spans t = some y → x.isFree = true →
    y.isFree = true → x.start + x.numPages = y.start → maxPages < x.numPages + y.numPages

/-! ### Free neighbours -/

/-- The length of the free span over page `q`, 0 if there is none. -/
def freeAt (h : PageHeap) (q : Nat) : Nat :=
  match (h.lookup q).bind h.spans with
  | some y => if y.isFree then y.numPages else 0
  | none => 0

theorem freeAt_of_mem (hi : Inv Rest h L) (hy : h.spans t = some y) (hf : y.isFree = true)
    {q : Nat} (h₁ : y.start ≤ q) (h₂ : q < y.start + y.numPages) : freeAt h q = y.numPages := by
  have hq : h.pageMap q = some t := (hi.exact q t).mpr (covers_iff.mpr ⟨y, hy, h₁, h₂⟩)
  simp [freeAt, lookup, hq, hy, hf]

/-- A free span over `q`, or none. -/
theorem freeAt_cases (hi : Inv Rest h L) (q : Nat) :
    (∃ t y, h.spans t = some y ∧ y.isFree = true ∧ y.start ≤ q ∧ q < y.start + y.numPages ∧
      freeAt h q = y.numPages) ∨
    (freeAt h q = 0 ∧ ∀ t y, h.spans t = some y → y.isFree = true →
      ¬ (y.start ≤ q ∧ q < y.start + y.numPages)) := by
  by_cases hex : ∃ t y, h.spans t = some y ∧ y.isFree = true ∧ y.start ≤ q ∧
      q < y.start + y.numPages
  · obtain ⟨t, y, hy, hf, h₁, h₂⟩ := hex
    exact .inl ⟨t, y, hy, hf, h₁, h₂, freeAt_of_mem hi hy hf h₁ h₂⟩
  · refine .inr ⟨?_, fun t y hy hf hq => hex ⟨t, y, hy, hf, hq⟩⟩
    cases hq : h.lookup q with
    | none => simp [freeAt, hq]
    | some t =>
        obtain ⟨y, hy, h₁, h₂⟩ := covers_iff.mp ((hi.exact q t).mp hq)
        have hf : y.isFree = false := by
          by_contra hf
          exact hex ⟨t, y, hy, by simpa using hf, h₁, h₂⟩
        simp [freeAt, hq, hy, hf]

/-- The free span next to `x` on the left, or none. -/
theorem freeAt_left (hi : Inv Rest h L) (hx : h.spans s = some x) :
    (∃ t y, t ≠ s ∧ h.spans t = some y ∧ y.isFree = true ∧ y.start + y.numPages = x.start ∧
      freeAt h (x.start - 1) = y.numPages) ∨
    (freeAt h (x.start - 1) = 0 ∧ ∀ t y, h.spans t = some y → y.isFree = true →
      y.start + y.numPages ≠ x.start) := by
  have hxb := hi.bounds s x hx
  rcases freeAt_cases hi (x.start - 1) with ⟨t, y, hy, hf, h₁, h₂, e⟩ | ⟨e, hno⟩
  · have hts : t ≠ s := by
      rintro rfl
      obtain rfl := Option.some.inj (hx.symm.trans hy)
      omega
    have hdis := hi.pageMapExact.disjoint t s y x hy hx hts
    exact .inl ⟨t, y, hts, hy, hf, by omega, e⟩
  · refine .inr ⟨e, fun t y hy hf heq => hno t y hy hf ?_⟩
    have hyb := hi.bounds t y hy
    omega

/-- The free span next to `x` on the right, or none. -/
theorem freeAt_right (hi : Inv Rest h L) (hx : h.spans s = some x) :
    (∃ t y, t ≠ s ∧ h.spans t = some y ∧ y.isFree = true ∧ x.start + x.numPages = y.start ∧
      freeAt h (x.start + x.numPages) = y.numPages) ∨
    (freeAt h (x.start + x.numPages) = 0 ∧ ∀ t y, h.spans t = some y → y.isFree = true →
      x.start + x.numPages ≠ y.start) := by
  have hxb := hi.bounds s x hx
  rcases freeAt_cases hi (x.start + x.numPages) with ⟨t, y, hy, hf, h₁, h₂, e⟩ | ⟨e, hno⟩
  · have hts : t ≠ s := by
      rintro rfl
      obtain rfl := Option.some.inj (hx.symm.trans hy)
      omega
    have hdis := hi.pageMapExact.disjoint t s y x hy hx hts
    exact .inl ⟨t, y, hts, hy, hf, by omega, e⟩
  · refine .inr ⟨e, fun t y hy hf heq => hno t y hy hf ?_⟩
    have hyb := hi.bounds t y hy
    omega

theorem freeAt_lt (hi : Inv Rest h L) (hx : h.spans s = some x) :
    freeAt h (x.start - 1) < x.start := by
  have hxb := hi.bounds s x hx
  rcases freeAt_left hi hx with ⟨t, y, -, hy, -, hadj, e⟩ | ⟨e, -⟩
  · have hyb := hi.bounds t y hy
    omega
  · omega

/-! ### The condition -/

/-- The pages of `x` and of its free neighbours, which `return_span` merges. -/
def mergedLen (h : PageHeap) (x : Span) : Nat :=
  freeAt h (x.start - 1) + x.numPages + freeAt h (x.start + x.numPages)

/-- One past the last of these pages. -/
def mergedEnd (h : PageHeap) (x : Span) : Nat :=
  x.start + x.numPages + freeAt h (x.start + x.numPages)

/-- What carving leaves of `m` pages. -/
def tailLen (m : Nat) : Nat := (m - 1) % maxPages + 1

/-- `m` pages do not fit together with the free span at page `q`, if there is one. -/
def Apart (h : PageHeap) (m q : Nat) : Prop := freeAt h q = 0 ∨ maxPages < m + freeAt h q

/-- The last piece a call leaves does not fit together with the free span on its right.

* `return_span`: the piece is what carving leaves of the merged span;
* `allocate_span`: it is what the best fit has beyond the pages asked for. -/
def Settles (h : PageHeap) : Call → Prop
  | .returnSpan (some s) => ∀ x, h.spans s = some x →
      Apart h (tailLen (mergedLen h x)) (mergedEnd h x)
  | .allocateSpan _ n size => 0 < n → size < uint32Max → ∀ s x, h.spans s = some x →
      x.isFree = true → BestFit h n x → n < x.numPages →
        Apart h (x.numPages - n) (x.start + x.numPages)
  | _ => True

theorem tailLen_eq {m n : Nat} (h₁ : maxPages * n < m) (h₂ : m ≤ maxPages * (n + 1)) :
    tailLen m = m - maxPages * n := by
  have hlt : m - 1 - maxPages * n < maxPages := by
    rw [Nat.mul_add] at h₂
    omega
  have : m - 1 = maxPages * n + (m - 1 - maxPages * n) := by omega
  rw [tailLen, this, Nat.mul_add_mod, Nat.mod_eq_of_lt hlt]
  omega

/-! ### return_span -/

/-- `e` is free and ends where `x` begins. -/
def LeftOf (x : Span) (e : Extent) : Prop := e.free = true ∧ e.start + e.len = x.start

/-- `e` is free and begins where `x` ends. -/
def RightOf (x : Span) (e : Extent) : Prop := e.free = true ∧ x.start + x.numPages = e.start

theorem eq_of_covers (hi : Inv Rest h L) {q : Nat} (h₁ : h.ext.Covers s q)
    (h₂ : h.ext.Covers t q) : s = t :=
  Option.some.inj (((hi.exact q s).mpr h₁).symm.trans ((hi.exact q t).mpr h₂))

section
variable {e f : Extent} (hi : Inv Rest h L) (he : h.ext s = some e)
include hi he

theorem LeftOf.covers (hl : LeftOf x e) : h.ext.Covers s (x.start - 1) := by
  obtain ⟨y, hy, rfl⟩ := ext_some he
  have hyb := hi.bounds s y hy
  have hend := hl.2
  simp only [Span.extent] at hend
  exact covers_iff.mpr ⟨y, hy, by omega, by omega⟩

theorem RightOf.covers (hr : RightOf x e) : h.ext.Covers s (x.start + x.numPages) := by
  obtain ⟨y, hy, rfl⟩ := ext_some he
  have hyb := hi.bounds s y hy
  have hend := hr.2
  simp only [Span.extent] at hend
  exact covers_iff.mpr ⟨y, hy, by omega, by omega⟩

/-- A free span over `q` is what `freeAt` measures. -/
theorem freeAt_of_covers {q : Nat} (hf : e.free = true) (hc : h.ext.Covers s q) :
    freeAt h q = e.len := by
  obtain ⟨y, hy, h₁, h₂⟩ := covers_iff.mp hc
  obtain rfl := Option.some.inj ((ext_eq hy).symm.trans he)
  exact freeAt_of_mem hi hy hf h₁ h₂

end

/-- After the left merge. -/
theorem joinLeft_ext (hi : Inv Rest h L) (hx : h.spans s = some x) {E : Extents Nat}
    (hj : JoinLeft s (Function.update h.ext s (some ⟨x.start, x.numPages, true⟩)) E) :
    E s = some ⟨x.start - freeAt h (x.start - 1), x.numPages + freeAt h (x.start - 1), true⟩ ∧
      ∀ t e, t ≠ s → (E t = some e ↔ h.ext t = some e ∧ ¬ LeftOf x e) := by
  obtain ⟨e₀, he₀, hj⟩ := hj
  rw [Function.update_self] at he₀
  obtain rfl := Option.some.inj he₀
  have hxb := hi.bounds s x hx
  rcases hj with ⟨rfl, hno⟩ | ⟨l, f, hls, hf, hff, hadj, rfl⟩
  · have hno' : ∀ t e, t ≠ s → h.ext t = some e → ¬ LeftOf x e := fun t e hts he hl =>
      hno t e (by rw [Function.update_of_ne hts, he]) hl.1 hl.2
    have hzero : freeAt h (x.start - 1) = 0 := by
      rcases freeAt_left hi hx with ⟨t, y, hts, hy, hyf, hadj, -⟩ | ⟨e, -⟩
      · exact absurd ⟨hyf, hadj⟩ (hno' t y.extent hts (ext_eq hy))
      · exact e
    refine ⟨by simp [hzero], fun t e hts => ?_⟩
    rw [Function.update_of_ne hts]
    exact ⟨fun he => ⟨he, hno' t e hts he⟩, fun he => he.1⟩
  · rw [Function.update_of_ne hls] at hf
    have hl : LeftOf x f := ⟨hff, hadj⟩
    have hcov := hl.covers hi hf
    have hlen := freeAt_of_covers hi hf hff hcov
    obtain ⟨y, hy, rfl⟩ := ext_some hf
    have hyb := hi.bounds l y hy
    have hend := hl.2
    simp only [Span.extent] at hend hlen
    refine ⟨?_, fun t e hts => ?_⟩
    · rw [Function.update_self, hlen, show x.start - y.numPages = y.start by omega]
      rfl
    · rw [Function.update_of_ne hts]
      by_cases htl : t = l
      · subst htl
        rw [Function.update_self, hf]
        exact ⟨fun he => (Option.some_ne_none _ he.symm).elim,
          fun he => absurd hl (Option.some.inj he.1 ▸ he.2)⟩
      · rw [Function.update_of_ne htl, Function.update_of_ne hts]
        exact ⟨fun he => ⟨he, fun hle => htl (eq_of_covers hi (hle.covers hi he) hcov)⟩,
          fun he => he.1⟩

/-- After the right merge, which follows the left one. -/
theorem joinRight_ext (hi : Inv Rest h L) (hx : h.spans s = some x) {E E' : Extents Nat}
    (hE : E s = some ⟨x.start - freeAt h (x.start - 1), x.numPages + freeAt h (x.start - 1), true⟩)
    (hrest : ∀ t e, t ≠ s → (E t = some e ↔ h.ext t = some e ∧ ¬ LeftOf x e))
    (hj : JoinRight s E E') :
    E' s = some ⟨x.start - freeAt h (x.start - 1), mergedLen h x, true⟩ ∧
      ∀ t e, t ≠ s → (E' t = some e ↔ h.ext t = some e ∧ ¬ LeftOf x e ∧ ¬ RightOf x e) := by
  obtain ⟨e₀, he₀, hj⟩ := hj
  obtain rfl := Option.some.inj (hE.symm.trans he₀)
  have hxb := hi.bounds s x hx
  have hlt := freeAt_lt hi hx
  -- what lies right of the merged span lies right of `x`, and cannot lie left of it
  have hright : ∀ {f : Extent}, f.free = true →
      (Extent.Adjacent ⟨x.start - freeAt h (x.start - 1), x.numPages + freeAt h (x.start - 1),
        true⟩ f ↔ RightOf x f) := fun {f} hff => by
    simp only [Extent.Adjacent, RightOf, hff, true_and]
    constructor <;> intro h <;> omega
  have hboth : ∀ {f : Extent}, RightOf x f → ¬ LeftOf x f := fun hr hl => by
    have := hr.2
    have := hl.2
    omega
  rcases hj with ⟨rfl, hno⟩ | ⟨r, f, hrs, hf, hff, hadj, rfl⟩
  · have hno' : ∀ t e, t ≠ s → h.ext t = some e → ¬ RightOf x e := fun t e hts he hr =>
      hno t e ((hrest t e hts).mpr ⟨he, hboth hr⟩) hr.1 ((hright hr.1).mpr hr)
    have hzero : freeAt h (x.start + x.numPages) = 0 := by
      rcases freeAt_right hi hx with ⟨t, y, hts, hy, hyf, hadj, -⟩ | ⟨e, -⟩
      · exact absurd ⟨hyf, hadj⟩ (hno' t y.extent hts (ext_eq hy))
      · exact e
    refine ⟨by rw [hE, mergedLen, hzero, Nat.add_comm x.numPages, Nat.add_zero], fun t e hts => ?_⟩
    rw [hrest t e hts]
    exact ⟨fun he => ⟨he.1, he.2, hno' t e hts he.1⟩, fun he => ⟨he.1, he.2.1⟩⟩
  · have hr := (hright hff).mp hadj
    have hfh := ((hrest r f hrs).mp hf).1
    have hcov := hr.covers hi hfh
    have hlen := freeAt_of_covers hi hfh hff hcov
    refine ⟨?_, fun t e hts => ?_⟩
    · rw [Function.update_self, mergedLen, hlen, Nat.add_comm x.numPages]
    · rw [Function.update_of_ne hts]
      by_cases htr : t = r
      · subst htr
        rw [Function.update_self, hfh]
        exact ⟨fun he => (Option.some_ne_none _ he.symm).elim,
          fun he => absurd hr (Option.some.inj he.1 ▸ he.2.2)⟩
      · rw [Function.update_of_ne htr, hrest t e hts]
        exact ⟨fun he => ⟨he.1, he.2, fun hre =>
          htr (eq_of_covers hi (hre.covers hi he.1) hcov)⟩, fun he => ⟨he.1, he.2.1⟩⟩

/-- **`return_span` in closed form.**  Of the merged pages, `n` chunks go to fresh spans and `s`
keeps the rest; the spans next to `x` that were free are gone, and the others stay. -/
theorem returned_ext (hi : Inv Rest h L) (hx : h.spans s = some x)
    (hr : Returned s h.nextId h.ext h'.ext) :
    ∃ n, maxPages * n < mergedLen h x ∧ mergedLen h x ≤ maxPages * (n + 1) ∧
      h'.ext s = some ⟨mergedEnd h x - tailLen (mergedLen h x), tailLen (mergedLen h x), true⟩ ∧
      ∀ (t : Nat) e, t ≠ s → (h'.ext t = some e ↔
        (h.nextId ≤ t ∧ t < h.nextId + n ∧
          e = ⟨x.start - freeAt h (x.start - 1) + maxPages * (t - h.nextId), maxPages, true⟩) ∨
        (h.ext t = some e ∧ ¬ LeftOf x e ∧ ¬ RightOf x e)) := by
  obtain ⟨e, E₁, E₂, n, he, hl, hrr, ⟨e₂, he₂, hn₁, hn₂, hE⟩⟩ := hr
  obtain rfl := Option.some.inj ((ext_eq hx).symm.trans he)
  obtain ⟨hE₁, hrest₁⟩ := joinLeft_ext hi hx hl
  obtain ⟨hE₂, hrest₂⟩ := joinRight_ext hi hx hE₁ hrest₁ hrr
  have hlt := freeAt_lt hi hx
  obtain rfl := Option.some.inj (hE₂.symm.trans he₂)
  dsimp only at hn₁ hn₂ hE
  refine ⟨n, hn₁, hn₂, ?_, fun t e hts => ?_⟩
  · rw [hE, tailLen_eq hn₁ hn₂]
    simp only [if_true, Option.some.injEq, Extent.mk.injEq, and_true]
    simp only [mergedEnd, mergedLen] at *
    omega
  · rw [hE]
    simp only [if_neg hts]
    by_cases hfresh : h.nextId ≤ t ∧ t < h.nextId + n
    · have hnone : h.ext t ≠ some e := fun he => by
        obtain ⟨y, hy, -⟩ := ext_some he
        exact absurd (hi.ids t y hy) (not_lt.mpr hfresh.1)
      rw [if_pos hfresh]
      simp only [Option.some.injEq, hfresh.1, hfresh.2, true_and, hnone, false_and, or_false]
      exact eq_comm
    · rw [if_neg hfresh, hrest₂ t e hts]
      exact ⟨.inr, fun hor => hor.resolve_left fun hc => hfresh ⟨hc.1, hc.2.1⟩⟩

theorem tight_iff : Tight h ↔ ∀ s t e f, s ≠ t → h.ext s = some e → h.ext t = some f →
    e.free = true → f.free = true → e.Adjacent f → maxPages < e.len + f.len := by
  constructor
  · intro ht s t e f hst he hf hef hff hadj
    obtain ⟨x, hx, rfl⟩ := ext_some he
    obtain ⟨y, hy, rfl⟩ := ext_some hf
    exact ht s t x y hst hx hy hef hff hadj
  · intro ht s t x y hst hx hy hxf hyf hadj
    exact ht s t x.extent y.extent hst (ext_eq hx) (ext_eq hy) hxf hyf hadj

theorem ext_pos (hi : Inv Rest h L) {e : Extent} (he : h.ext s = some e) : 0 < e.len := by
  obtain ⟨x, hx, rfl⟩ := ext_some he
  exact (hi.bounds s x hx).2.1

theorem tailLen_pos (m : Nat) : 0 < tailLen m := Nat.succ_pos _

/-- If the heap is tight after `return_span`, the tail was apart from what follows. -/
theorem apart_of_tight (hi : Inv Rest h L) (hx : h.spans s = some x) (hu : x.isFree = false)
    (hr : Returned s h.nextId h.ext h'.ext) (ht : Tight h') :
    Apart h (tailLen (mergedLen h x)) (mergedEnd h x) := by
  obtain ⟨n, hn₁, hn₂, htail, hrest⟩ := returned_ext hi hx hr
  rcases freeAt_right hi hx with ⟨t, y, hts, hy, hyf, hadj, hlen⟩ | ⟨hzero, -⟩
  · have hend : mergedEnd h x = y.start + y.numPages := by rw [mergedEnd, hlen]; omega
    rcases freeAt_right hi hy with ⟨u, z, -, hz, hzf, hadj', hlen'⟩ | ⟨hzero, -⟩
    · have hus : u ≠ s := by
        rintro rfl
        obtain rfl := Option.some.inj (hx.symm.trans hz)
        rw [hu] at hzf
        cases hzf
      have hyb := hi.bounds t y hy
      have hkept : h'.ext u = some z.extent := (hrest u _ hus).mpr <| .inr
        ⟨ext_eq hz, fun hl => by have := hl.2; simp only [Span.extent] at this; omega,
          fun hr => by have := hr.2; simp only [Span.extent] at this; omega⟩
      have hle : tailLen (mergedLen h x) ≤ mergedEnd h x := by
        rw [tailLen_eq hn₁ hn₂, mergedEnd, mergedLen]
        have := freeAt_lt hi hx
        omega
      rw [Apart, hend, hlen']
      exact .inr (tight_iff.mp ht s u _ _ hus.symm htail hkept rfl hzf
        (by simp only [Extent.Adjacent, Span.extent]; omega))
    · exact .inl (by rw [hend, hzero])
  · exact .inl (by rw [mergedEnd, hzero, Nat.add_zero, hzero])

/-- If the tail is apart from what follows, `return_span` keeps the heap tight. -/
theorem tight_of_apart (hi : Inv Rest h L) {L' : Nat → List SpanId} (hi' : Inv Rest h' L')
    (hx : h.spans s = some x) (hr : Returned s h.nextId h.ext h'.ext) (ht : Tight h)
    (ha : Apart h (tailLen (mergedLen h x)) (mergedEnd h x)) : Tight h' := by
  obtain ⟨n, hn₁, hn₂, htail, hrest⟩ := returned_ext hi hx hr
  have hlt := freeAt_lt hi hx
  have htl := tailLen_eq hn₁ hn₂
  have hpos := tailLen_pos (mergedLen h x)
  have hle : tailLen (mergedLen h x) ≤ mergedLen h x := by rw [htl]; exact Nat.sub_le _ _
  have hme : mergedEnd h x = x.start - freeAt h (x.start - 1) + mergedLen h x := by
    rw [mergedEnd, mergedLen]; omega
  refine tight_iff.mpr fun a b e f hab he hf hef hff hadj => ?_
  have hepos := ext_pos hi' he
  have hfpos := ext_pos hi' hf
  by_cases has : a = s
  · -- the tail and what follows it
    subst has
    obtain rfl := Option.some.inj (htail.symm.trans he)
    rcases (hrest b f (Ne.symm hab)).mp hf with ⟨-, -, rfl⟩ | ⟨hfo, -, -⟩
    · simp only; omega
    · have hstart : f.start = mergedEnd h x := by
        simp only [Extent.Adjacent] at hadj
        omega
      have hlen := freeAt_of_covers hi hfo hff (q := mergedEnd h x)
        ⟨f, hfo, by simp only [Extent.Mem]; omega⟩
      rcases ha with ha | ha
      · omega
      · simpa [hlen] using ha
  rcases (hrest a e has).mp he with ⟨-, -, rfl⟩ | ⟨heo, hnl, hnr⟩
  · simp only; omega
  by_cases hbs : b = s
  · -- what precedes the merged span, which was not carved
    subst hbs
    obtain rfl := Option.some.inj (htail.symm.trans hf)
    simp only [Extent.Adjacent] at hadj
    have hn : n = 0 := by
      by_contra hn
      have hlast : h'.ext (h.nextId + (n - 1)) = some ⟨x.start - freeAt h (x.start - 1) +
          maxPages * (h.nextId + (n - 1) - h.nextId), maxPages, true⟩ :=
        (hrest _ _ fun e => absurd (hi.ids _ x hx) (not_lt.mpr (e ▸ Nat.le_add_right _ _))).mpr
          (.inl ⟨by omega, by omega, rfl⟩)
      have hcov : h'.ext.Covers (h.nextId + (n - 1)) (e.start + e.len - 1) := by
        refine ⟨_, hlast, ?_⟩
        have : maxPages * n = maxPages * (n - 1) + maxPages := by
          rw [← Nat.mul_succ, Nat.succ_eq_add_one, Nat.sub_add_cancel (by omega)]
        have hmax : 0 < maxPages := by decide
        simp only [Extent.Mem, Nat.add_sub_cancel_left]
        omega
      have haid := eq_of_covers hi' ⟨e, he, by simp only [Extent.Mem]; omega⟩ hcov
      obtain ⟨y, hy, -⟩ := ext_some heo
      have := hi.ids a y hy
      rw [haid] at this
      exact absurd this (not_lt.mpr (Nat.le_add_right _ _))
    subst hn
    rcases freeAt_left hi hx with ⟨l, y, -, hy, hyf, hyadj, hlen⟩ | ⟨hzero, -⟩
    · have hal : a ≠ l := by
        rintro rfl
        obtain rfl := Option.some.inj ((ext_eq hy).symm.trans heo)
        exact hnl ⟨hyf, hyadj⟩
      have := tight_iff.mp ht a l e y.extent hal heo (ext_eq hy) hef hyf
        (by simp only [Extent.Adjacent, Span.extent]; omega)
      simp only [Span.extent, mergedLen] at this ⊢ htl
      omega
    · exact absurd ⟨hef, by simp only [mergedLen] at *; omega⟩ hnl
  rcases (hrest b f hbs).mp hf with ⟨-, -, rfl⟩ | ⟨hfo, -, -⟩
  · simp only; omega
  · exact tight_iff.mp ht a b e f hab heo hfo hef hff hadj

/-- **One `return_span`.** -/
theorem returnSpan_tight (hi : Inv Rest h L) {L' : Nat → List SpanId} (hi' : Inv Rest h' L')
    (hx : h.spans s = some x) (hu : x.isFree = false)
    (hr : Returned s h.nextId h.ext h'.ext) (ht : Tight h) :
    Tight h' ↔ Apart h (tailLen (mergedLen h x)) (mergedEnd h x) :=
  ⟨apart_of_tight hi hx hu hr, tight_of_apart hi hi' hx hr ht⟩

/-! ### allocate_span and deallocate_span -/

/-- Fewer free extents keep the heap tight. -/
theorem Tight.of_ext (ht : Tight h)
    (hsub : ∀ t e, h'.ext t = some e → e.free = true → h.ext t = some e) : Tight h' := by
  refine tight_iff.mpr fun a b e f hab he hf hef hff hadj => ?_
  exact tight_iff.mp ht a b e f hab (hsub a e he hef) (hsub b f hf hff) hef hff hadj

/-- **One `allocate_span` that splits `x`.** -/
theorem split_tight (hi : Inv Rest h L) {L' : Nat → List SpanId} (hi' : Inv Rest h' L')
    (hx : h.spans s = some x) (hn : 0 < n) (hlt : n < x.numPages)
    (hext : h'.ext = Function.update
      (Function.update h.ext h.nextId (some ⟨x.start + n, x.numPages - n, true⟩)) s
      (some ⟨x.start, n, false⟩)) (ht : Tight h) :
    Tight h' ↔ Apart h (x.numPages - n) (x.start + x.numPages) := by
  have hsn : s ≠ h.nextId := (hi.ids s x hx).ne
  have hself : h'.ext s = some ⟨x.start, n, false⟩ := by rw [hext, Function.update_self]
  have hnew : h'.ext h.nextId = some ⟨x.start + n, x.numPages - n, true⟩ := by
    rw [hext, Function.update_of_ne hsn.symm, Function.update_self]
  have hrest : ∀ t, t ≠ s → t ≠ h.nextId → h'.ext t = h.ext t := fun t h₁ h₂ => by
    rw [hext, Function.update_of_ne h₁, Function.update_of_ne h₂]
  constructor
  · intro ht'
    rcases freeAt_right hi hx with ⟨t, y, hts, hy, hyf, hadj, hlen⟩ | ⟨hzero, -⟩
    · have htn : t ≠ h.nextId := (hi.ids t y hy).ne
      rw [Apart, hlen]
      exact .inr (tight_iff.mp ht' h.nextId t _ y.extent htn.symm hnew
        (by rw [hrest t hts htn, ext_eq hy]) rfl hyf
        (by simp only [Extent.Adjacent, Span.extent]; omega))
    · exact .inl hzero
  · intro ha
    refine tight_iff.mpr fun a b e f hab he hf' hef hff hadj => ?_
    have hfpos := ext_pos hi' hf'
    have has : a ≠ s := by
      rintro rfl
      rw [hself] at he
      obtain rfl := Option.some.inj he
      cases hef
    have hbs : b ≠ s := by
      rintro rfl
      rw [hself] at hf'
      obtain rfl := Option.some.inj hf'
      cases hff
    by_cases hbn : b = h.nextId
    · -- the remainder follows the span in use it was cut from
      subst hbn
      obtain rfl := Option.some.inj (hnew.symm.trans hf')
      have hepos := ext_pos hi' he
      rw [hrest a has hab] at he
      obtain ⟨y, hy, rfl⟩ := ext_some he
      have hdis := hi.pageMapExact.disjoint a s y x hy hx has
      simp only [Extent.Adjacent, Span.extent] at hadj hepos
      omega
    rw [hrest b hbs hbn] at hf'
    by_cases han : a = h.nextId
    · subst han
      obtain rfl := Option.some.inj (hnew.symm.trans he)
      simp only [Extent.Adjacent] at hadj
      have hlen := freeAt_of_covers hi hf' hff (q := x.start + x.numPages)
        ⟨f, hf', by simp only [Extent.Mem]; omega⟩
      rw [Apart, hlen] at ha
      rcases ha with ha | ha
      · omega
      · exact ha
    · rw [hrest a has han] at he
      exact tight_iff.mp ht a b e f hab he hf' hef hff hadj

theorem BestFit.unique (hi : Inv Rest h L) (hx : h.spans s = some x) (hy : h.spans t = some y)
    (hxf : x.isFree = true) (hyf : y.isFree = true) (hbx : BestFit h n x) (hby : BestFit h n y) :
    s = t := by
  by_contra hst
  have hne := hi.start_ne hx hy hst
  have h₁ := hbx.2 t y hy hyf hby.1
  have h₂ := hby.2 s x hx hxf hbx.1
  omega

/-! ### Runs -/

/-- **One call** keeps a tight heap tight exactly when it settles. -/
theorem calls_tight {c : Call} (hi : Inv Rest h L) (ht : Tight h) (ha : calls.allowed h c)
    (hstep : calls.step h c = some h') : Tight h' ↔ Settles h c := by
  cases c with
  | allocateSpan k n size =>
      obtain ⟨r, h₁, L', hres, hi', hall⟩ := allocateSpan_spec hi k n size
      obtain rfl : h₁ = h' := by simpa [calls, Call.step, hres] using hstep
      -- without a best fit there is nothing to settle
      have hnone : (size < uint32Max → ∀ t y, h.spans t = some y → y.isFree = true →
          y.numPages < n) → Settles h (.allocateSpan k n size) :=
        fun hno _ hlt s x hx hf hfit _ => absurd (hno hlt s x hx hf) (not_lt.mpr hfit.1)
      cases hall with
      | rejected hn =>
          refine iff_of_true ht fun hpos _ s x hx _ hfit _ => ?_
          have hle := hi.small s x hx (by simp)
          have := hfit.1
          omega
      | failed hno _ heq =>
          refine iff_of_true (ht.of_ext fun t e he _ => ?_) (hnone hno)
          rw [heq] at he
          exact he
      | mapped hno _ _ _ _ hext =>
          refine iff_of_true (ht.of_ext fun t e he hef => ?_) (hnone hno)
          rw [hext] at he
          by_cases htn : t = h.nextId
          · subst htn
            rw [Function.update_self] at he
            obtain rfl := Option.some.inj he
            cases hef
          · rwa [Function.update_of_ne htn] at he
      | @reused s x _ hn hlts hx hf hfit _ _ _ hext =>
          rcases hext with ⟨heq, hext⟩ | ⟨hlt, hext⟩
          · refine iff_of_true (ht.of_ext fun t e he hef => ?_) fun _ _ t y hy hyf hfy hlt => ?_
            · rw [hext] at he
              by_cases hts : t = s
              · subst hts
                rw [Function.update_self] at he
                obtain rfl := Option.some.inj he
                cases hef
              · rwa [Function.update_of_ne hts] at he
            · obtain rfl := BestFit.unique hi hx hy hf hyf hfit hfy
              obtain rfl := Option.some.inj (hx.symm.trans hy)
              omega
          · rw [split_tight hi hi' hx hn hlt hext ht]
            refine ⟨fun hap _ _ t y hy hyf hfy _ => ?_, fun hset => hset hn hlts s x hx hf hfit hlt⟩
            obtain rfl := BestFit.unique hi hx hy hf hyf hfit hfy
            obtain rfl := Option.some.inj (hx.symm.trans hy)
            exact hap
  | returnSpan s =>
      cases s with
      | none =>
          obtain rfl : h = h' := by simpa [calls, Call.step, returnSpan] using hstep
          exact iff_of_true ht trivial
      | some s =>
          obtain ⟨x, hx, hu⟩ := Call.allowed_returnSpan ha
          obtain ⟨h₁, L', hres, hi', -, -, -, hr⟩ := returnSpan_spec hi hx hu
          obtain rfl : h₁ = h' := Option.some.inj (hres.symm.trans hstep)
          rw [returnSpan_tight hi hi' hx hu hr ht]
          refine ⟨fun hap y hy => ?_, fun hset => hset x hx⟩
          obtain rfl := Option.some.inj (hx.symm.trans hy)
          exact hap
  | deallocateSpan s =>
      cases s with
      | none =>
          obtain rfl : h = h' := by simpa [calls, Call.step, deallocateSpan] using hstep
          exact iff_of_true ht trivial
      | some s =>
          obtain ⟨x, hx⟩ := Call.allowed_deallocateSpan ha
          obtain ⟨h₁, L', hres, -, -, -, -, hext⟩ := deallocateSpan_spec hi hx
          obtain rfl : h₁ = h' := by simpa [calls, Call.step, hres] using hstep
          refine iff_of_true (ht.of_ext fun t e he _ => ?_) trivial
          rw [hext] at he
          by_cases hts : t = s
          · subst hts
            rw [Function.update_self] at he
            cases he
          · rwa [Function.update_of_ne hts] at he

/-- **Maximal coalescing.**  In a run from the empty heap, no two adjacent free spans ever fit
together in one span exactly when each call settles. -/
theorem tight_throughout_iff {foreign : Nat → Bool} {cs : List Call}
    (r : calls.Run (init foreign) cs h) :
    calls.Throughout Tight (init foreign) cs ↔ calls.EachStep Settles (init foreign) cs := by
  refine r.throughout_iff (I := fun h => ∃ L, Inv Rest h L) ?_ ?_ ⟨_, Inv.init foreign⟩ ?_
  · rintro h c h' ⟨L, hi⟩ ha hstep
    obtain ⟨h'', L', hres, hi'⟩ := calls_step hi ha
    obtain rfl := Option.some.inj (hres.symm.trans hstep)
    exact ⟨L', hi'⟩
  · rintro h c h' ⟨L, hi⟩ ht ha hstep
    exact calls_tight hi ht ha hstep
  · intro s t x y _ hx
    cases hx

theorem tight_throughout_sample :
    calls.Throughout Tight (init fun _ => false) sampleCalls ↔
      calls.EachStep Settles (init fun _ => false) sampleCalls := by
  obtain ⟨h, r⟩ := sampleCalls_run
  exact tight_throughout_iff r

/-- Three adjacent mappings of 156, 100 and 200 pages, returned last to first.  The second return
merges 300 pages and leaves 45 of them behind a full chunk; the third merges 411 and leaves 156
of them in front of these 45. -/
def looseCalls : List Call :=
  let k := kernelOf [1000, 1156, 1256]
  [.allocateSpan k 156 8, .allocateSpan k 100 8, .allocateSpan k 200 8,
    .returnSpan (some 2), .returnSpan (some 1), .returnSpan (some 0)]

/-- Two adjacent free spans of 156 and 45 pages are left unmerged. -/
theorem tight_fails : ∃ h, calls.Run (init fun _ => false) looseCalls h ∧ ¬ Tight h := by
  have hrun : (calls.replay (init fun _ => false) looseCalls).map
      (fun h => ((h.spans 0).map Span.extent, (h.spans 1).map Span.extent)) =
        some (some ⟨1255, 156, true⟩, some ⟨1411, 45, true⟩) := by decide +kernel
  obtain ⟨h, hh, he⟩ := Option.map_eq_some_iff.mp hrun
  obtain ⟨h₀, h₁⟩ := Prod.mk.inj he
  refine ⟨h, System.Run.of_replay hh, fun ht => ?_⟩
  exact absurd (tight_iff.mp ht 0 1 _ _ (by decide) h₀ h₁ rfl rfl rfl) (by decide)

end TieredAllocator.PageHeap
