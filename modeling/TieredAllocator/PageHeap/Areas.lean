import TieredAllocator.Lib.Arena
import TieredAllocator.PageHeap.Maximal
import TieredAllocator.PageHeap.BestFit

/-!
# Page heap — areas

The page heap refines `Arena.system`, in which spans are lengths at start pages (`areas_refine`):
the `Span` objects, the lists they are on, the page map and the order of merging and carving do not
show.  What `allocate_span` takes from the best fit, `return_span` puts back as it was exactly when
the free neighbours it merges, if any, leave the pieces where they were (`areas_round_trip`).
-/

namespace TieredAllocator
open Lib

def Span.area (x : Span) : Area := ⟨x.numPages, if x.isFree then none else some x.size⟩

variable {x : Span} {m tag : Nat}

theorem Span.area_free : x.area = ⟨m, none⟩ ↔ x.numPages = m ∧ x.isFree = true := by
  cases hf : x.isFree <;> simp [area, hf]

theorem Span.area_used : x.area = ⟨m, some tag⟩ ↔
    x.numPages = m ∧ x.isFree = false ∧ x.size = tag := by
  cases hf : x.isFree <;> simp [area, hf]

namespace PageHeap

variable {h h' : PageHeap} {L L' : Nat → List SpanId} {s t : SpanId} {y : Span} {A : Arena}
  {n size q len : Nat} {k : Kernel}

/-- `A` has the spans of `h`. -/
def Shows (h : PageHeap) (A : Arena) : Prop :=
  ∀ q a, A q = some a ↔ ∃ s x, h.spans s = some x ∧ x.start = q ∧ x.area = a

theorem free_ext : h.ext s = some ⟨q, m, true⟩ ↔
    ∃ x, h.spans s = some x ∧ x.start = q ∧ x.area = ⟨m, none⟩ := by
  constructor
  · intro he
    obtain ⟨x, hx, hxe⟩ := ext_some he
    obtain ⟨h₁, h₂, h₃⟩ := Extent.mk.inj hxe
    exact ⟨x, hx, h₁, Span.area_free.mpr ⟨h₂, h₃⟩⟩
  · rintro ⟨x, hx, rfl, harea⟩
    obtain ⟨rfl, hf⟩ := Span.area_free.mp harea
    rw [ext_eq hx, Span.extent, hf]

namespace Shows

theorem at_start (hA : Shows h A) (hx : h.spans s = some x) : A x.start = some x.area :=
  (hA _ _).mpr ⟨s, x, hx, rfl, rfl⟩

theorem free_iff (hA : Shows h A) : A q = some ⟨m, none⟩ ↔ ∃ s, h.ext s = some ⟨q, m, true⟩ :=
  (hA q _).trans (exists_congr fun _ => free_ext.symm)

theorem used_iff (hA : Shows h A) : A q = some ⟨m, some tag⟩ ↔ ∃ s x, h.spans s = some x ∧
    x.start = q ∧ x.numPages = m ∧ x.isFree = false ∧ x.size = tag := by
  rw [hA]
  simp only [Span.area_used]

/-- What has the free extents and the spans in use has all spans. -/
theorem of_iff (hfree : ∀ q m, A q = some ⟨m, none⟩ ↔ ∃ s, h.ext s = some ⟨q, m, true⟩)
    (hused : ∀ q m tag, A q = some ⟨m, some tag⟩ ↔ ∃ s x, h.spans s = some x ∧
      x.start = q ∧ x.numPages = m ∧ x.isFree = false ∧ x.size = tag) : Shows h A := by
  intro q a
  obtain ⟨m, o⟩ := a
  cases o with
  | none => exact (hfree q m).trans (exists_congr fun _ => free_ext)
  | some tag =>
      rw [hused]
      simp only [Span.area_used]

end Shows

/-- Spans are told apart by their starts. -/
theorem ext_inj (hi : Inv Rest h L) {e f : Extent} (he : h.ext s = some e) (hf : h.ext t = some f)
    (hstart : e.start = f.start) : s = t := by
  obtain ⟨x, hx, rfl⟩ := ext_some he
  obtain ⟨y, hy, rfl⟩ := ext_some hf
  by_contra hst
  exact hi.start_ne hx hy hst hstart

/-- The spans in use are those of `h`, but for `s`. -/
theorem Keeps.used (hk : Keeps h h' s) {t : SpanId} (hts : t ≠ s) :
    (∃ x, h'.spans t = some x ∧ x.start = q ∧ x.numPages = m ∧ x.isFree = false ∧ x.size = tag) ↔
      ∃ x, h.spans t = some x ∧ x.start = q ∧ x.numPages = m ∧ x.isFree = false ∧ x.size = tag := by
  constructor
  · rintro ⟨x, hx, h₁, h₂, hf, h₃⟩
    exact ⟨x, (hk t x hts hf).mp hx, h₁, h₂, hf, h₃⟩
  · rintro ⟨x, hx, h₁, h₂, hf, h₃⟩
    exact ⟨x, (hk t x hts hf).mpr hx, h₁, h₂, hf, h₃⟩

/-! ### allocate_span -/

theorem shows_reuse (hi : Inv Rest h L) (hi' : Inv Rest h' L') (hA : Shows h A)
    (hx : h.spans s = some x) (hn : 0 < n)
    (hs : h'.spans s = some { x with
      numPages := n, next := none, prev := none, size := size, isFree := false })
    (hk : Keeps h h' s)
    (hext : x.numPages = n ∧ h'.ext = Function.update h.ext s (some ⟨x.start, n, false⟩) ∨
      n < x.numPages ∧ h'.ext = Function.update
        (Function.update h.ext h.nextId (some ⟨x.start + n, x.numPages - n, true⟩)) s
        (some ⟨x.start, n, false⟩)) :
    Shows h' (A.reuse n size x.start x.numPages) := by
  have hsn : h.nextId ≠ s := (hi.ids s x hx).ne'
  have hself : h'.ext s = some ⟨x.start, n, false⟩ := ext_eq hs
  -- the other free extents
  have hother : ∀ t q m, t ≠ s → (n < x.numPages → t ≠ h.nextId) →
      (h'.ext t = some ⟨q, m, true⟩ ↔ h.ext t = some ⟨q, m, true⟩) := by
    intro t q m hts htn
    rcases hext with ⟨-, hext⟩ | ⟨hlt, hext⟩
    · rw [hext, Function.update_of_ne hts]
    · rw [hext, Function.update_of_ne hts, Function.update_of_ne (htn hlt)]
  refine Shows.of_iff (fun q m => ?_) fun q m tag => ?_
  · by_cases hq : q = x.start
    · subst hq
      rw [Arena.reuse_self]
      refine iff_of_false (by simp) ?_
      rintro ⟨t, he⟩
      obtain rfl := ext_inj hi' he hself rfl
      simp [hself] at he
    · rw [Arena.reuse, if_neg hq]
      by_cases hrest : q = x.start + n ∧ n < x.numPages
      · obtain ⟨rfl, hlt⟩ := hrest
        obtain ⟨heq, -⟩ | ⟨-, hext⟩ := hext
        · omega
        have hnew : h'.ext h.nextId = some ⟨x.start + n, x.numPages - n, true⟩ := by
          rw [hext, Function.update_of_ne hsn, Function.update_self]
        rw [if_pos ⟨rfl, hlt⟩]
        constructor
        · intro hm
          obtain ⟨hm, -⟩ := Area.mk.inj (Option.some.inj hm)
          exact ⟨h.nextId, by rw [hnew, hm]⟩
        · rintro ⟨t, he⟩
          obtain rfl := ext_inj hi' he hnew rfl
          rw [hnew] at he
          obtain ⟨-, hm, -⟩ := Extent.mk.inj (Option.some.inj he)
          rw [hm]
      · rw [if_neg hrest, hA.free_iff]
        refine exists_congr fun t => ?_
        by_cases hts : t = s
        · subst hts
          rw [hself, ext_eq hx]
          simp [Span.extent, Ne.symm hq]
        · by_cases htn : n < x.numPages ∧ t = h.nextId
          · obtain ⟨hlt, rfl⟩ := htn
            obtain ⟨heq, -⟩ | ⟨-, hext⟩ := hext
            · omega
            have hnone : h.ext h.nextId = none := by rw [ext, spans_nextId hi]; rfl
            rw [hnone, hext, Function.update_of_ne hsn, Function.update_self]
            refine iff_of_false (by simp) fun he => hrest ⟨?_, hlt⟩
            exact (Extent.mk.inj (Option.some.inj he)).1.symm
          · exact (hother t q m hts fun hlt e => htn ⟨hlt, e⟩).symm
  · by_cases hq : q = x.start
    · subst hq
      rw [Arena.reuse_self]
      constructor
      · intro he
        obtain ⟨rfl, htag⟩ := Area.mk.inj (Option.some.inj he)
        exact ⟨s, _, hs, rfl, rfl, rfl, Option.some.inj htag⟩
      · rintro ⟨t, y, hy, hstart, hm, hyf, htag⟩
        have hts : t = s := ext_inj hi' (ext_eq hy) hself hstart
        subst hts
        obtain rfl := Option.some.inj (hs.symm.trans hy)
        rw [← hm, ← htag]
    · rw [Arena.reuse, if_neg hq]
      have hused : (∃ t y, h'.spans t = some y ∧ y.start = q ∧ y.numPages = m ∧
          y.isFree = false ∧ y.size = tag) ↔ A q = some ⟨m, some tag⟩ := by
        rw [hA.used_iff]
        refine exists_congr fun t => ?_
        by_cases hts : t = s
        · subst hts
          refine iff_of_false ?_ ?_
          · rintro ⟨y, hy, hstart, -⟩
            obtain rfl := Option.some.inj (hs.symm.trans hy)
            exact hq hstart.symm
          · rintro ⟨y, hy, hstart, -⟩
            obtain rfl := Option.some.inj (hx.symm.trans hy)
            exact hq hstart.symm
        · exact hk.used hts
      rw [hused]
      by_cases hrest : q = x.start + n ∧ n < x.numPages
      · rw [if_pos hrest]
        refine iff_of_false (by simp) fun hAq => ?_
        -- inside `x`
        obtain ⟨t, y, hy, hstart, hm, hyf, -⟩ := hA.used_iff.mp hAq
        have hts : t ≠ s := by
          rintro rfl
          obtain rfl := Option.some.inj (hx.symm.trans hy)
          omega
        have hyb := hi.bounds t y hy
        have hd := hi.pageMapExact.disjoint t s y x hy hx hts
        omega
      · rw [if_neg hrest]

theorem shows_extend (hi : Inv Rest h L) (hA : Shows h A) {start : Nat}
    (hs : h'.spans h.nextId = some { start := start, numPages := n, size := size })
    (hnone : A start = none) (hk : Keeps h h' h.nextId)
    (hext : h'.ext = Function.update h.ext h.nextId (some ⟨start, n, false⟩)) :
    Shows h' (Function.update A start (some ⟨n, some size⟩)) := by
  have hnew : h.ext h.nextId = none := by rw [ext, spans_nextId hi]; rfl
  refine Shows.of_iff (fun q m => ?_) fun q m tag => ?_
  · by_cases hq : q = start
    · subst hq
      rw [Function.update_self]
      refine iff_of_false (by simp) ?_
      rintro ⟨t, he⟩
      rw [hext] at he
      by_cases ht : t = h.nextId
      · rw [ht, Function.update_self] at he
        simp at he
      · rw [Function.update_of_ne ht] at he
        have hfree := hA.free_iff.mpr ⟨t, he⟩
        rw [hnone] at hfree
        cases hfree
    · rw [Function.update_of_ne hq, hA.free_iff]
      refine exists_congr fun t => ?_
      rw [hext]
      by_cases ht : t = h.nextId
      · rw [ht, Function.update_self, hnew]
        simp
      · rw [Function.update_of_ne ht]
  · by_cases hq : q = start
    · subst hq
      rw [Function.update_self]
      constructor
      · intro he
        obtain ⟨rfl, htag⟩ := Area.mk.inj (Option.some.inj he)
        exact ⟨h.nextId, _, hs, rfl, rfl, rfl, Option.some.inj htag⟩
      · rintro ⟨t, y, hy, hstart, hm, hyf, htag⟩
        by_cases ht : t = h.nextId
        · subst ht
          obtain rfl := Option.some.inj (hs.symm.trans hy)
          rw [← hm, ← htag]
        · have hused := hA.used_iff.mpr ⟨t, y, (hk t y ht hyf).mp hy, hstart, hm, hyf, htag⟩
          rw [hnone] at hused
          cases hused
    · rw [Function.update_of_ne hq, hA.used_iff]
      refine exists_congr fun t => ?_
      by_cases ht : t = h.nextId
      · subst ht
        refine iff_of_false ?_ ?_
        · rintro ⟨y, hy, -⟩
          rw [spans_nextId hi] at hy
          cases hy
        · rintro ⟨y, hy, hstart, -⟩
          obtain rfl := Option.some.inj (hs.symm.trans hy)
          exact hq hstart.symm
      · exact (hk.used ht).symm

/-! ### return_span -/

theorem freeBefore (hi : Inv Rest h L) (hA : Shows h A) (hx : h.spans s = some x) :
    A.FreeBefore x.start (freeAt h (x.start - 1)) := by
  rcases freeAt_left hi hx with ⟨t, y, -, hy, hyf, hend, hlen⟩ | ⟨hzero, hno⟩
  · have hyb := hi.bounds t y hy
    rw [hlen]
    refine .inr ⟨hyb.2.1, by omega, ?_⟩
    rw [show x.start - y.numPages = y.start by omega, hA.at_start hy, Span.area, hyf]
    rfl
  · refine .inl ⟨hzero, fun q m hq => ?_⟩
    obtain ⟨t, he⟩ := hA.free_iff.mp hq
    obtain ⟨y, hy, rfl, harea⟩ := free_ext.mp he
    obtain ⟨rfl, hyf⟩ := Span.area_free.mp harea
    exact hno t y hy hyf

theorem freeFrom (hi : Inv Rest h L) (hA : Shows h A) (hx : h.spans s = some x) :
    A.FreeFrom (x.start + x.numPages) (freeAt h (x.start + x.numPages)) := by
  rcases freeAt_right hi hx with ⟨t, y, -, hy, hyf, hend, hlen⟩ | ⟨hzero, hno⟩
  · have hyb := hi.bounds t y hy
    rw [hlen, hend]
    refine .inr ⟨hyb.2.1, ?_⟩
    rw [hA.at_start hy, Span.area, hyf]
    rfl
  · refine .inl ⟨hzero, fun m hq => ?_⟩
    obtain ⟨t, he⟩ := hA.free_iff.mp hq
    obtain ⟨y, hy, hstart, harea⟩ := free_ext.mp he
    exact hno t y hy (Span.area_free.mp harea).2 hstart.symm

/-- A span that is not merged lies outside the merged pages. -/
theorem outside_merged (hi : Inv Rest h L) (hx : h.spans s = some x) (hts : t ≠ s)
    (hy : h.spans t = some y) (hl : ¬ LeftOf x y.extent) (hr : ¬ RightOf x y.extent) :
    ¬ (x.start - freeAt h (x.start - 1) ≤ y.start ∧
      y.start < x.start - freeAt h (x.start - 1) + mergedLen h x) := by
  have hyb := hi.bounds t y hy
  have hlt := freeAt_lt hi hx
  have hd := hi.pageMapExact.disjoint t s y x hy hx hts
  simp only [mergedLen]
  rintro ⟨h₁, h₂⟩
  rcases hd with hd | hd
  · -- it would lie in the free span on the left
    rcases freeAt_left hi hx with ⟨u, z, hus, hz, hzf, hend, hlen⟩ | ⟨hzero, -⟩
    · by_cases htu : t = u
      · subst htu
        obtain rfl := Option.some.inj (hy.symm.trans hz)
        exact hl ⟨hzf, hend⟩
      · have := hi.pageMapExact.disjoint t u y z hy hz htu
        omega
    · omega
  · rcases freeAt_right hi hx with ⟨u, z, hus, hz, hzf, hend, hlen⟩ | ⟨hzero, -⟩
    · by_cases htu : t = u
      · subst htu
        obtain rfl := Option.some.inj (hy.symm.trans hz)
        exact hr ⟨hzf, hend⟩
      · have := hi.pageMapExact.disjoint t u y z hy hz htu
        omega
    · omega

/-- The spans that are merged lie in the merged pages. -/
theorem inside_merged (hi : Inv Rest h L) (hx : h.spans s = some x) {e : Extent}
    (he : h.ext t = some e) (hm : LeftOf x e ∨ RightOf x e) :
    x.start - freeAt h (x.start - 1) ≤ e.start ∧
      e.start < x.start - freeAt h (x.start - 1) + mergedLen h x := by
  have hlt := freeAt_lt hi hx
  have hxb := hi.bounds s x hx
  have hpos := ext_pos hi he
  simp only [mergedLen]
  rcases hm with hl | hr
  · have hlen := freeAt_of_covers hi he hl.1 (hl.covers hi he)
    have hend := hl.2
    omega
  · have hlen := freeAt_of_covers hi he hr.1 (hr.covers hi he)
    have hend := hr.2
    omega

theorem shows_pieces (hi : Inv Rest h L) (hA : Shows h A) (hx : h.spans s = some x)
    (hu : x.isFree = false) (hk : Keeps h h' s)
    (hfree : ∀ y, h'.spans s = some y → y.isFree = true)
    (hr : Returned s h.nextId h.ext h'.ext) :
    Shows h' (Arena.pieces maxPages A (x.start - freeAt h (x.start - 1)) (mergedLen h x)) := by
  obtain ⟨n, hn₁, hn₂, htail, hrest⟩ := returned_ext hi hx hr
  have hlt := freeAt_lt hi hx
  have hxb := hi.bounds s x hx
  have hmax : 0 < maxPages := by decide
  have htl := tailLen_eq hn₁ hn₂
  have hend : mergedEnd h x = x.start - freeAt h (x.start - 1) + mergedLen h x := by
    rw [mergedEnd, mergedLen]
    omega
  have htailStart : mergedEnd h x - tailLen (mergedLen h x) =
      x.start - freeAt h (x.start - 1) + maxPages * n := by
    rw [htl, hend]
    omega
  rw [htailStart] at htail
  set p := x.start - freeAt h (x.start - 1) with hp
  refine Shows.of_iff (fun q m => ?_) fun q m tag => ?_
  · by_cases hq : p ≤ q ∧ q < p + mergedLen h x
    · rw [Arena.pieces_of_in hq.1 hq.2]
      constructor
      · rintro ⟨-, ⟨i, hi'⟩, rfl⟩
        obtain rfl : q = p + maxPages * i := by omega
        have hin : i ≤ n := by
          have hlt : maxPages * i < maxPages * (n + 1) := by omega
          exact Nat.lt_succ_iff.mp (Nat.lt_of_mul_lt_mul_left hlt)
        rcases Nat.eq_or_lt_of_le hin with rfl | hin
        · refine ⟨s, htail.trans ?_⟩
          have hmul : maxPages * (i + 1) = maxPages * i + maxPages := Nat.mul_succ _ _
          have hmin : min maxPages (p + mergedLen h x - (p + maxPages * i)) =
              mergedLen h x - maxPages * i := by omega
          rw [hmin, htl]
        · have hmul : maxPages * (i + 1) = maxPages * i + maxPages := Nat.mul_succ _ _
          have hle : maxPages * (i + 1) ≤ maxPages * n := Nat.mul_le_mul_left _ hin
          have hmin : min maxPages (p + mergedLen h x - (p + maxPages * i)) = maxPages := by omega
          have hne : h.nextId + i ≠ s := fun e =>
            absurd (hi.ids _ x hx) (not_lt.mpr (e ▸ Nat.le_add_right _ _))
          refine ⟨h.nextId + i, (hrest _ _ hne).mpr (.inl ⟨by omega, by omega, ?_⟩)⟩
          rw [hmin, Nat.add_sub_cancel_left]
      · rintro ⟨t, he⟩
        by_cases hts : t = s
        · subst hts
          obtain ⟨rfl, rfl, -⟩ := Extent.mk.inj (Option.some.inj (htail.symm.trans he))
          have hmul : maxPages * (n + 1) = maxPages * n + maxPages := Nat.mul_succ _ _
          refine ⟨rfl, ⟨n, by omega⟩, ?_⟩
          rw [htl]
          omega
        · rcases (hrest t _ hts).mp he with ⟨h₁, h₂, heq⟩ | ⟨hold, hl, hr'⟩
          · obtain ⟨rfl, rfl, -⟩ := Extent.mk.inj heq
            have hle : maxPages * (t - h.nextId + 1) ≤ maxPages * n :=
              Nat.mul_le_mul_left _ (by omega)
            have hmul : maxPages * (t - h.nextId + 1) = maxPages * (t - h.nextId) + maxPages :=
              Nat.mul_succ _ _
            exact ⟨rfl, ⟨t - h.nextId, by omega⟩, by omega⟩
          · obtain ⟨y, hy, hye⟩ := ext_some hold
            have hout := outside_merged hi hx hts hy (hye ▸ hl) (hye ▸ hr')
            obtain ⟨rfl, -, -⟩ := Extent.mk.inj hye
            exact absurd hq hout
    · rw [Arena.pieces_of_out hq, hA.free_iff]
      constructor
      · rintro ⟨t, he⟩
        have hts : t ≠ s := by
          rintro rfl
          rw [ext_eq hx] at he
          obtain ⟨-, -, hf⟩ := Extent.mk.inj (Option.some.inj he)
          rw [hu] at hf
          cases hf
        refine ⟨t, (hrest t _ hts).mpr (.inr ⟨he, fun hl => ?_, fun hr' => ?_⟩)⟩
        · exact hq (inside_merged hi hx he (.inl hl))
        · exact hq (inside_merged hi hx he (.inr hr'))
      · rintro ⟨t, he⟩
        by_cases hts : t = s
        · subst hts
          obtain ⟨rfl, -, -⟩ := Extent.mk.inj (Option.some.inj (htail.symm.trans he))
          omega
        · rcases (hrest t _ hts).mp he with ⟨h₁, h₂, heq⟩ | ⟨hold, -, -⟩
          · obtain ⟨rfl, -, -⟩ := Extent.mk.inj heq
            have hle : maxPages * (t - h.nextId) < maxPages * n :=
              Nat.mul_lt_mul_of_pos_left (by omega) hmax
            omega
          · exact ⟨t, hold⟩
  · have hused : (∃ t y, h'.spans t = some y ∧ y.start = q ∧ y.numPages = m ∧
        y.isFree = false ∧ y.size = tag) ↔ ∃ t y, t ≠ s ∧ h.spans t = some y ∧ y.start = q ∧
        y.numPages = m ∧ y.isFree = false ∧ y.size = tag := by
      refine exists_congr fun t => ?_
      by_cases hts : t = s
      · subst hts
        refine iff_of_false ?_ ?_
        · rintro ⟨y, hy, -, -, hyf, -⟩
          rw [hfree y hy] at hyf
          cases hyf
        · rintro ⟨y, hne, -⟩
          exact hne rfl
      · rw [hk.used hts]
        simp only [ne_eq, hts, not_false_eq_true, true_and]
    rw [hused]
    by_cases hq : p ≤ q ∧ q < p + mergedLen h x
    · rw [Arena.pieces_of_in hq.1 hq.2]
      refine iff_of_false (fun h => by cases h.1) ?_
      rintro ⟨t, y, hts, hy, rfl, -, hyf, -⟩
      refine outside_merged hi hx hts hy (fun hl => ?_) (fun hr' => ?_) hq
      · have hf := hl.1
        rw [Span.extent, hyf] at hf
        cases hf
      · have hf := hr'.1
        rw [Span.extent, hyf] at hf
        cases hf
    · rw [Arena.pieces_of_out hq, hA.used_iff]
      constructor
      · rintro ⟨t, y, hy, rfl, hm, hyf, htag⟩
        refine ⟨t, y, ?_, hy, rfl, hm, hyf, htag⟩
        rintro rfl
        obtain rfl := Option.some.inj (hx.symm.trans hy)
        simp only [mergedLen] at hq
        omega
      · rintro ⟨t, y, -, hy, hrest⟩
        exact ⟨t, y, hy, hrest⟩

/-! ### deallocate_span -/

theorem shows_drop (hi : Inv Rest h L) (hA : Shows h A) (hx : h.spans s = some x)
    (hk : Keeps h h' s) (hnone : h'.spans s = none) (hext : h'.ext = Function.update h.ext s none) :
    Shows h' (Function.update A x.start none) := by
  refine Shows.of_iff (fun q m => ?_) fun q m tag => ?_
  · have hiff : ∀ t, h'.ext t = some ⟨q, m, true⟩ ↔ t ≠ s ∧ h.ext t = some ⟨q, m, true⟩ := by
      intro t
      rw [hext]
      by_cases hts : t = s
      · subst hts
        simp
      · rw [Function.update_of_ne hts]
        exact (and_iff_right hts).symm
    simp only [hiff]
    by_cases hq : q = x.start
    · subst hq
      rw [Function.update_self]
      refine iff_of_false (by simp) ?_
      rintro ⟨t, hts, he⟩
      exact hts (ext_inj hi he (ext_eq hx) rfl)
    · rw [Function.update_of_ne hq, hA.free_iff]
      refine exists_congr fun t => (and_iff_right_of_imp ?_).symm
      rintro he rfl
      rw [ext_eq hx] at he
      exact hq (Extent.mk.inj (Option.some.inj he)).1.symm
  · by_cases hq : q = x.start
    · subst hq
      rw [Function.update_self]
      refine iff_of_false (by simp) ?_
      rintro ⟨t, y, hy, hstart, -, hyf, -⟩
      by_cases hts : t = s
      · subst hts
        rw [hnone] at hy
        cases hy
      · exact hi.start_ne ((hk t y hts hyf).mp hy) hx hts hstart
    · rw [Function.update_of_ne hq, hA.used_iff]
      refine exists_congr fun t => ?_
      by_cases hts : t = s
      · subst hts
        refine iff_of_false ?_ ?_
        · rintro ⟨y, hy, hstart, -⟩
          obtain rfl := Option.some.inj (hx.symm.trans hy)
          exact hq hstart.symm
        · rintro ⟨y, hy, -⟩
          rw [hnone] at hy
          cases hy
      · exact (hk.used hts).symm

/-! ### Runs -/

/-- What the callers of the page heap see. -/
def shown (h : PageHeap) : Call → Option Arena.Shown
  | .allocateSpan k numPages size => (h.allocateSpan k numPages size).map fun r =>
      .asked numPages size ((r.1.bind r.2.spans).map Span.start)
  | .returnSpan s => (s.bind h.spans).map fun x => .gaveBack x.start
  | .deallocateSpan s => (s.bind h.spans).map fun x => .dropped x.start

/-- One event of the arena matches. -/
theorem Shows.matched {c : Call} (e : Arena.Event) (he : e.Allowed maxPages uint32Max A)
    (hshown : h.shown c = e.shown A) (hA : Shows h' (e.apply maxPages A)) :
    ∃ es B, (Arena.system maxPages uint32Max).Run A es B ∧
      (Arena.system maxPages uint32Max).trace Arena.Event.shown A es = (h.shown c).toList ∧
      Shows h' B := by
  refine ⟨[e], e.apply maxPages A, .one he rfl, ?_, hA⟩
  rw [hshown]
  exact List.append_nil _

theorem areas_step {c : Call} (hi : Inv Rest h L) (hA : Shows h A) (ha : calls.allowed h c)
    (hs : calls.step h c = some h') :
    ∃ es B, (Arena.system maxPages uint32Max).Run A es B ∧
      (Arena.system maxPages uint32Max).trace Arena.Event.shown A es = (h.shown c).toList ∧
      Shows h' B := by
  cases c with
  | allocateSpan k n size =>
      obtain ⟨r, h₁, L', hres, hi', hall⟩ := allocateSpan_spec hi k n size
      obtain rfl : h₁ = h' := by simpa [calls, Call.step, hres] using hs
      have hshown : h.shown (.allocateSpan k n size) =
          some (.asked n size ((r.bind h₁.spans).map Span.start)) := by rw [shown, hres]; rfl
      -- a free area is too short, because no span is long enough
      have hshort : (size < uint32Max → ∀ t y, h.spans t = some y → y.isFree = true →
          y.numPages < n) → size < uint32Max → ∀ q m, A q = some ⟨m, none⟩ → m < n := by
        intro hno hlt q m hq
        obtain ⟨t, he⟩ := hA.free_iff.mp hq
        obtain ⟨y, hy, -, harea⟩ := free_ext.mp he
        obtain ⟨rfl, hyf⟩ := Span.area_free.mp harea
        exact hno hlt t y hy hyf
      cases hall with
      | rejected hn =>
          refine Shows.matched (.refuse n size) ?_ hshown hA
          exact hn.imp_right .inl
      | failed hno _ heq =>
          refine Shows.matched (.refuse n size) (.inr (.inr (hshort hno))) hshown ?_
          rw [heq]
          exact hA
      | @mapped start _ hno hm hnew hk _ hext =>
          have hn : 0 < n ∧ n ≤ maxPages := by
            by_contra hn
            rw [allocateSpan, if_pos (by omega)] at hres
            cases (Prod.mk.inj (Option.some.inj hres)).1
          -- the new span lies apart from the others
          have hapart : ∀ q a, A q = some a → start + n ≤ q ∨ q + a.len ≤ start := by
            intro q a hq
            obtain ⟨t, y, hy, rfl, rfl⟩ := (hA q a).mp hq
            have ht : t ≠ h.nextId := (hi.ids t y hy).ne
            have hy' : h₁.ext t = some y.extent := by
              rw [hext, Function.update_of_ne ht, ext_eq hy]
            obtain ⟨z, hz, hze⟩ := ext_some hy'
            obtain ⟨hz₁, hz₂, -⟩ := Extent.mk.inj hze
            have hd := hi'.pageMapExact.disjoint h.nextId t _ z hnew hz ht.symm
            rw [hz₁, hz₂] at hd
            exact hd
          have hnone : A start = none := by
            cases hAs : A start with
            | none => rfl
            | some a =>
                obtain ⟨t, y, hy, hstart, rfl⟩ := (hA start a).mp hAs
                have hpos := (hi.bounds t y hy).2.1
                have hd := hapart start _ hAs
                simp only [Span.area] at hd
                omega
          refine Shows.matched (.extend n size start) ⟨hn.1, hn.2, hshort hno, hapart⟩ ?_
            (shows_extend hi hA hnew hnone hk hext)
          rw [hshown, Option.bind_some, hnew]
          rfl
      | @reused s x _ hn hlt hx hf hfit hself hk _ hext =>
          have hbest : A.BestFit n x.start x.numPages := by
            refine ⟨by rw [hA.at_start hx, Span.area, hf]; rfl, hfit.1, fun q m hq hle => ?_⟩
            obtain ⟨t, he⟩ := hA.free_iff.mp hq
            obtain ⟨y, hy, rfl, harea⟩ := free_ext.mp he
            obtain ⟨rfl, hyf⟩ := Span.area_free.mp harea
            exact hfit.2 t y hy hyf hle
          refine Shows.matched (.reuse n size x.start x.numPages) ⟨hn, hlt, hbest⟩ ?_
            (shows_reuse hi hi' hA hx hn hself hk hext)
          rw [hshown, Option.bind_some, hself]
          rfl
  | returnSpan s =>
      cases s with
      | none =>
          obtain rfl : h = h' := by simpa [calls, Call.step, returnSpan] using hs
          exact ⟨[], A, .refl A, rfl, hA⟩
      | some s =>
          obtain ⟨x, hx, hu⟩ := Call.allowed_returnSpan ha
          obtain ⟨h₁, L', hres, -, hk, hfree, -, hr⟩ := returnSpan_spec hi hx hu
          obtain rfl : h₁ = h' := Option.some.inj (hres.symm.trans hs)
          have hAx : A x.start = some ⟨x.numPages, some x.size⟩ := by
            rw [hA.at_start hx, Span.area, hu]
            rfl
          refine Shows.matched (.giveBack x.start (freeAt h (x.start - 1))
            (freeAt h (x.start + x.numPages)))
            ⟨x.numPages, x.size, hAx, freeBefore hi hA hx, freeFrom hi hA hx⟩ ?_ ?_
          · simp only [shown, Option.bind_some, hx, Option.map_some, Arena.Event.shown]
          · rw [Arena.Event.apply, hAx]
            exact shows_pieces hi hA hx hu hk hfree hr
  | deallocateSpan s =>
      cases s with
      | none =>
          obtain rfl : h = h' := by simpa [calls, Call.step, deallocateSpan] using hs
          exact ⟨[], A, .refl A, rfl, hA⟩
      | some s =>
          obtain ⟨x, hx⟩ := Call.allowed_deallocateSpan ha
          obtain ⟨h₁, L', hres, -, hk, hnone, -, hext⟩ := deallocateSpan_spec hi hx
          obtain rfl : h₁ = h' := by simpa [calls, Call.step, hres] using hs
          refine Shows.matched (.drop x.start) ⟨_, hA.at_start hx⟩ ?_
            (shows_drop hi hA hx hk hnone hext)
          simp only [shown, Option.bind_some, hx, Option.map_some, Arena.Event.shown]

variable {foreign : Nat → Bool} {cs : List Call}

/-- **The page heap is an arena.**  After each run of its calls, with any answers of the kernel, the
spans are the areas of an arena after a run with the same requests and answers: `allocate_span`
takes the first pages of the best fit, or new pages where nothing fits, and `return_span` joins the
span with the free ones on both sides and cuts the whole into pieces of `MAX_PAGES` and a rest. -/
theorem areas_refine (r : calls.Run (init foreign) cs h) :
    ∃ es A, (Arena.system maxPages uint32Max).Run (fun _ => none) es A ∧
      (Arena.system maxPages uint32Max).trace Arena.Event.shown (fun _ => none) es =
        calls.trace shown (init foreign) cs ∧
      Shows h A := by
  have hstep : ∀ {h A c h'}, (∃ L, Inv Rest h L) ∧ Shows h A → calls.allowed h c →
      calls.step h c = some h' → ∃ es B, (Arena.system maxPages uint32Max).Run A es B ∧
        (Arena.system maxPages uint32Max).trace Arena.Event.shown A es = (h.shown c).toList ∧
        (∃ L, Inv Rest h' L) ∧ Shows h' B := by
    rintro h A c h' ⟨⟨L, hi⟩, hA⟩ ha hs
    obtain ⟨h₁, L', hres, hi'⟩ := calls_step hi ha
    obtain rfl := Option.some.inj (hs.symm.trans hres)
    obtain ⟨es, B, hrun, htrace, hB⟩ := areas_step hi hA ha hs
    exact ⟨es, B, hrun, htrace, ⟨L', hi'⟩, hB⟩
  have hinit : Shows (init foreign) fun _ => none := by
    intro q a
    refine iff_of_false (by simp) ?_
    rintro ⟨s, x, hx, -⟩
    cases hx
  obtain ⟨es, A, hrun, htrace, -, hA⟩ := r.refines hstep ⟨⟨_, Inv.init foreign⟩, hinit⟩
  exact ⟨es, A, hrun, htrace, hA⟩

theorem areas_refine_sample : ∃ h es A, calls.Run (init fun _ => false) sampleCalls h ∧
    (Arena.system maxPages uint32Max).Run (fun _ => none) es A ∧ Shows h A := by
  obtain ⟨h, r⟩ := sampleCalls_run
  obtain ⟨es, A, hrun, -, hA⟩ := areas_refine r
  exact ⟨h, es, A, r, hrun, hA⟩

/-! ### Taking and giving back -/

theorem apart_of_shows (hi : Inv Rest h L) (hA : Shows h A) : A.Apart maxPages where
  bounds q a hq := by
    obtain ⟨s, x, hx, rfl, rfl⟩ := (hA q a).mp hq
    exact ⟨(hi.bounds s x hx).2.1, hi.small s x hx (by simp)⟩
  disjoint p q a b hpq hp hq := by
    obtain ⟨s, x, hx, rfl, rfl⟩ := (hA p a).mp hp
    obtain ⟨t, y, hy, rfl, rfl⟩ := (hA q b).mp hq
    have hst : s ≠ t := by
      rintro rfl
      obtain rfl := Option.some.inj (hx.symm.trans hy)
      exact lt_irrefl _ hpq
    have hd := hi.pageMapExact.disjoint s t x y hx hy hst
    simp only [Span.area]
    omega

/-- The areas, as the page map finds them. -/
def areas (h : PageHeap) : Arena := fun q =>
  ((h.lookup q).bind h.spans).bind fun x => if x.start = q then some x.area else none

theorem shows_areas (hi : Inv Rest h L) : Shows h h.areas := by
  intro q a
  constructor
  · intro ha
    obtain ⟨x, hx, ha⟩ := Option.bind_eq_some_iff.mp ha
    obtain ⟨s, -, hs⟩ := Option.bind_eq_some_iff.mp hx
    split at ha
    · exact ⟨s, x, hs, ‹_›, Option.some.inj ha⟩
    · cases ha
  · rintro ⟨s, x, hx, rfl, rfl⟩
    have hpos := (hi.bounds s x hx).2.1
    have hs : h.lookup x.start = some s :=
      (hi.exact x.start s).mpr (covers_iff.mpr ⟨x, hx, le_rfl, by omega⟩)
    rw [areas, hs, Option.bind_some, hx, Option.bind_some, if_pos rfl]

theorem Shows.unique {B : Arena} (hA : Shows h A) (hB : Shows h B) : A = B := by
  funext q
  exact Option.ext fun a => (hA q a).trans (hB q a).symm

/-- **Round trip.**  After each run, let `allocate_span` take `n` pages of the free span `x`, and
`return_span` give them back at once: the spans are as before, free and in use, exactly when the
free span that ends before `x`, if there is one, has `MAX_PAGES`, and so has `x`, if all of it was
taken and a free span begins behind it. -/
theorem areas_round_trip (r : calls.Run (init foreign) cs h) (hx : h.spans s = some x)
    {h₁ : PageHeap} (hres : h.allocateSpan k n size = some (some s, h₁)) :
    ∃ h₂, h₁.returnSpan (some s) = some h₂ ∧ (h₂.areas = h.areas ↔
      (freeAt h (x.start - 1) = 0 ∨ freeAt h (x.start - 1) = maxPages) ∧
      (n = x.numPages → freeAt h (x.start + x.numPages) = 0 ∨ x.numPages = maxPages)) := by
  obtain ⟨L, hi⟩ := Run.inv r
  obtain ⟨r', h', L', hres', hi₁, hall⟩ := allocateSpan_spec hi k n size
  obtain ⟨rfl, rfl⟩ := Prod.mk.inj (Option.some.inj (hres.symm.trans hres'))
  have hA := shows_areas hi
  have hapart := apart_of_shows hi hA
  cases hall with
  | mapped _ _ _ _ _ _ =>
      rw [spans_nextId hi] at hx
      cases hx
  | @reused _ x' _ hn hlt hx' hf hfit hself hk _ hext =>
      obtain rfl := Option.some.inj (hx.symm.trans hx')
      have hA₁ := shows_reuse hi hi₁ hA hx hn hself hk hext
      obtain ⟨h₂, L₂, hret, hi₂, hk₂, hfree₂, -, hr₂⟩ := returnSpan_spec hi₁ hself rfl
      have hA₂ := shows_pieces hi₁ hA₁ hself rfl hk₂ hfree₂ hr₂
      have hp : h.areas x.start = some ⟨x.numPages, none⟩ := by
        rw [hA.at_start hx, Span.area, hf]
        rfl
      -- the free neighbours of the taken pages
      have hbefore := freeBefore hi hA hx
      have hbefore₁ := freeBefore hi₁ hA₁ hself
      have hll := hapart.freeBefore_unique (hapart.freeBefore_reuse hbefore₁) hbefore
      have hrr := Arena.freeFrom_reuse hn hfit.1 (freeFrom hi₁ hA₁ hself)
      have hlp := (freeAt_lt hi hx).le
      refine ⟨h₂, hret, ?_⟩
      rw [← hA₂.unique (shows_areas hi₂)]
      simp only [mergedLen] at hll hrr ⊢
      rw [hll]
      rcases hrr with ⟨hlt', hrr⟩ | ⟨rfl, hrr⟩
      · have hsum : freeAt h (x.start - 1) + n + (x.numPages - n) =
            freeAt h (x.start - 1) + x.numPages + 0 := by
          have := hfit.1
          omega
        rw [hrr, hsum, Arena.pieces_reuse hn hfit.1 hlp,
          hapart.pieces_eq_iff hp hbefore (.inl rfl)]
        exact and_congr_right fun _ => iff_of_true (.inl rfl) fun h => absurd h hlt'.ne
      · have hafter := freeFrom hi hA hx
        rw [Arena.freeFrom_unique hrr hafter, Arena.pieces_reuse hn le_rfl hlp,
          hapart.pieces_eq_iff hp hbefore (hafter.imp_left And.left)]
        exact and_congr_right fun _ => ⟨fun h _ => h, fun h => h rfl⟩

/-- One of the four pages that `sampleCalls` leaves free is taken and given back. -/
theorem areas_round_trip_sample : ∃ h h₁ h₂, calls.Run (init fun _ => false) sampleCalls h ∧
    h.allocateSpan (kernelOf []) 1 8 = some (some 0, h₁) ∧ h₁.returnSpan (some 0) = some h₂ ∧
    h₂.areas = h.areas := by
  have hrun : (calls.replay (init fun _ => false) sampleCalls).bind (fun h =>
      (h.spans 0).bind fun x => (h.allocateSpan (kernelOf []) 1 8).map fun r =>
        (r.1, freeAt h (x.start - 1), x.numPages)) = some (some 0, 0, 4) := by decide +kernel
  obtain ⟨h, hh, hrun⟩ := Option.bind_eq_some_iff.mp hrun
  obtain ⟨x, hx, hrun⟩ := Option.bind_eq_some_iff.mp hrun
  obtain ⟨⟨r, h₁⟩, hres, heq⟩ := Option.map_eq_some_iff.mp hrun
  obtain ⟨rfl, hrest⟩ := Prod.mk.inj heq
  obtain ⟨hl, hn⟩ := Prod.mk.inj hrest
  have hr := System.Run.of_replay hh
  obtain ⟨h₂, hret, hiff⟩ := areas_round_trip hr hx hres
  refine ⟨h, h₁, h₂, hr, hres, hret, hiff.mpr ⟨.inl hl, fun hone => ?_⟩⟩
  omega

end PageHeap
end TieredAllocator
