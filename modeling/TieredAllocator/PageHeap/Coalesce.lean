import TieredAllocator.PageHeap.Invariant

/-!
# Page heap — coalescing, splitting and carving

The three moves that change the extents of spans, each as a function on extents:

* `coalesceLeft_spec`, `coalesceRight_spec`: the span in flight absorbs the free span next to it,
  when there is one;
* `carve_spec`: the span in flight gives off `MAX_PAGES` chunks at its front until it fits;
* `split_spec`: a span in use keeps its first pages and the rest becomes a free span.
-/

namespace TieredAllocator.PageHeap
open Lib

variable {h h' : PageHeap} {P : SpanId → Prop} {L : Nat → List SpanId} {s o t : SpanId}
  {x y z : Span}

/-! ### Joining two spans -/

/-- `h` after the span `o` is merged into `s`, which then holds `z`. -/
def joined (h : PageHeap) (s o : SpanId) (x y z : Span) : PageHeap :=
  { h with
    spans := Function.update (Function.update h.spans s (some z)) o none
    pageMap := fill (fill (fill h.pageMap y.start y.numPages none) x.start x.numPages none)
      z.start z.numPages (some s) }

/-- **Joining.**  Once the free span `o` is off its list, replacing `o` and `s` by one span over
the pages of both keeps the invariant. -/
theorem join_spec (hi : Inv (· = s) h L) (hx : h.spans s = some x) (ho : h.spans o = some y)
    (hyf : y.isFree = true) (hne : o ≠ s)
    (hmem : ∀ q, z.extent.Mem q ↔ x.extent.Mem q ∨ y.extent.Mem q)
    (hz : 0 < z.start ∧ 0 < z.numPages ∧ z.start + z.numPages ≤ Os.pageLimit) :
    ∃ h₁ L', h.removeFromFreeList o = some h₁ ∧ h₁.spans s = some x ∧
      h₁.spans o = some { y with next := none, prev := none, isFree := false } ∧
      Inv (· = s) (joined h₁ s o x y z) L' ∧ Keeps h (joined h₁ s o x y z) s ∧
      (joined h₁ s o x y z).os = h.os ∧ (joined h₁ s o x y z).nextId = h.nextId ∧
      (joined h₁ s o x y z).ext =
        Function.update (Function.update h.ext o none) s (some z.extent) := by
  have hol := hi.complete o y ho hne hyf
  have hsl : ∀ i, s ∉ L i := fun i => hi.pending s i rfl
  obtain ⟨h₁, hrem, hi₁, hpm, hos, hnext, hself, hdata, hoff⟩ := removeFromFreeList_spec hi hol ho
  have hx₁ : h₁.spans s = some x := by rw [hoff s (hsl _), hx]
  have hxb := hi.bounds s x hx
  have hspans : ∀ t, t ≠ s → t ≠ o → (joined h₁ s o x y z).spans t = h₁.spans t :=
    fun t hts hto => by simp [joined, hts, hto]
  have hspans_s : (joined h₁ s o x y z).spans s = some z := by simp [joined, Ne.symm hne]
  have hspans_o : (joined h₁ s o x y z).spans o = none := by simp [joined]
  have hext : (joined h₁ s o x y z).ext =
      Function.update (Function.update h.ext o none) s (some z.extent) := by
    funext t
    by_cases hts : t = s
    · subst hts
      rw [Function.update_self, ext_eq hspans_s]
    · by_cases hto : t = o
      · subst hto
        rw [Function.update_of_ne hts, Function.update_self]
        simp [ext, hspans_o]
      · rw [Function.update_of_ne hts, Function.update_of_ne hto, ← ext_of_data (hdata t hto)]
        simp only [ext, hspans t hts hto]
  have hlist : ∀ i, ∀ t ∈ Function.update L y.numPages ((L y.numPages).erase o) i,
      t ≠ s ∧ t ≠ o := fun i t ht => by
    refine ⟨fun e => ?_, fun e => ?_⟩
    · exact hi₁.pending s i rfl (e ▸ ht)
    · subst e
      exact hi₁.not_mem_of_used hself rfl ht
  have hcases : ∀ t w, (joined h₁ s o x y z).spans t = some w →
      (t = s ∧ w = z) ∨ (t ≠ s ∧ t ≠ o ∧ h₁.spans t = some w) := fun t w hw => by
    by_cases hts : t = s
    · subst hts
      exact .inl ⟨rfl, (Option.some.inj (hspans_s.symm.trans hw)).symm⟩
    · by_cases hto : t = o
      · subst hto; rw [hspans_o] at hw; cases hw
      · exact .inr ⟨hts, hto, hspans t hts hto ▸ hw⟩
  refine ⟨h₁, Function.update L y.numPages ((L y.numPages).erase o), hrem, hx₁, hself, ?_, ?_,
    hos, hnext, hext⟩
  · refine hi₁.of_offList rfl (fun i t ht => hspans t (hlist i t ht).1 (hlist i t ht).2)
      (fun t i ht => ht ▸ hi₁.pending s i rfl) (fun t w hw hts hf => ?_)
      (fun t w hw hts => ?_) (fun t w hw => ?_) (fun t w hw => ?_) ?_ fun q => ?_
    · rcases hcases t w hw with ⟨e, -⟩ | ⟨-, -, hw'⟩
      · exact absurd e hts
      · exact hi₁.complete t w hw' hts hf
    · rcases hcases t w hw with ⟨e, -⟩ | ⟨-, -, hw'⟩
      · exact absurd e hts
      · exact hi₁.small t w hw' hts
    · rcases hcases t w hw with ⟨-, rfl⟩ | ⟨-, -, hw'⟩
      · exact hz
      · exact hi₁.bounds t w hw'
    · rcases hcases t w hw with ⟨rfl, -⟩ | ⟨-, -, hw'⟩
      · rw [show (joined h₁ t o x y z).nextId = h.nextId from hnext]
        exact hi.ids t x hx
      · exact hi₁.ids t w hw'
    · -- unregister `o`, unregister `s`, register `s`
      have he₁ : Exact (fill h.pageMap y.start y.numPages none) (Function.update h.ext o none) :=
        hi.exact.erase (ext_eq ho)
      have he₂ := he₁.erase (i := s) (e := x.extent)
        (by rw [Function.update_of_ne (Ne.symm hne), ext_eq hx])
      have he₃ := he₂.enter (i := s) (e := z.extent) (by simp) fun q hq j => by
        refine he₂.none_iff.mp ?_ j
        by_cases hqx : x.extent.Mem q
        · exact fill_of_mem hqx
        · rw [fill_of_not_mem hqx]
          exact fill_of_mem (e := y.extent) (((hmem q).mp hq).resolve_left hqx)
      rw [hext]
      simp only [joined, hpm]
      rw [Function.update_idem] at he₃
      exact he₃
    · have hq := hi.owned q
      rw [show (joined h₁ s o x y z).os = h.os from hos, ← hq]
      simp only [joined, hpm]
      by_cases hqz : z.extent.Mem q
      · rw [show fill _ z.start z.numPages (some s) q = some s from fill_of_mem hqz]
        rcases (hmem q).mp hqz with hqx | hqy
        · rw [hi.exact.index_eq (ext_eq hx) hqx]
        · rw [hi.exact.index_eq (ext_eq ho) hqy]; rfl
      · have hn : ¬ x.extent.Mem q ∧ ¬ y.extent.Mem q := by
          rw [hmem] at hqz; exact not_or.mp hqz
        rw [show fill _ z.start z.numPages (some s) q = _ from fill_of_not_mem hqz,
          show fill _ x.start x.numPages none q = _ from fill_of_not_mem hn.1,
          show fill _ y.start y.numPages none q = _ from fill_of_not_mem (e := y.extent) hn.2]
  · intro t w hts hw
    have hkeep : Keeps h h₁ o := Keeps.of_offList hi hdata fun t _ ht => hoff t ht
    by_cases hto : t = o
    · subst hto
      rw [hspans_o, ho]
      refine ⟨fun e => (Option.some_ne_none w e.symm).elim, fun e => ?_⟩
      obtain rfl := Option.some.inj e
      rw [hw] at hyf
      cases hyf
    · rw [hspans t hts hto]
      exact hkeep t w hto hw

/-! ### Coalescing -/

/-- `s` absorbs the free extent on its left, if there is one. -/
def JoinLeft (s : SpanId) (E E' : Extents SpanId) : Prop :=
  ∃ e, E s = some e ∧
    ((E' = E ∧ ∀ l f, E l = some f → f.free = true → ¬ f.Adjacent e) ∨
      ∃ l f, l ≠ s ∧ E l = some f ∧ f.free = true ∧ f.Adjacent e ∧
        E' = Function.update (Function.update E l none) s (some ⟨f.start, e.len + f.len, true⟩))

/-- `s` absorbs the free extent on its right, if there is one. -/
def JoinRight (s : SpanId) (E E' : Extents SpanId) : Prop :=
  ∃ e, E s = some e ∧
    ((E' = E ∧ ∀ r f, E r = some f → f.free = true → ¬ e.Adjacent f) ∨
      ∃ r f, r ≠ s ∧ E r = some f ∧ f.free = true ∧ e.Adjacent f ∧
        E' = Function.update (Function.update E r none) s (some ⟨e.start, e.len + f.len, true⟩))

/-- What a move of the span `s` in flight leaves behind: the invariant, the spans in use, the
system calls made, and `s` free and storing nothing. -/
structure Flight (s : SpanId) (h h' : PageHeap) (L' : Nat → List SpanId) (x' : Span) : Prop where
  inv : Inv (· = s) h' L'
  holds : h'.spans s = some x'
  free : x'.isFree = true
  size : x'.size = 0
  keeps : Keeps h h' s
  os : h'.os = h.os

theorem coalesceLeft_spec (hi : Inv (· = s) h L) (hx : h.spans s = some x)
    (hfree : x.isFree = true) (hsize : x.size = 0) :
    ∃ h' L' x', h.coalesceLeft s = some h' ∧ Flight s h h' L' x' ∧ JoinLeft s h.ext h'.ext ∧
      h'.nextId = h.nextId := by
  have hxb := hi.bounds s x hx
  have hext := ext_eq hx
  -- without a free span on the left nothing happens
  have hstay : (∀ l f, h.ext l = some f → f.free = true → ¬ f.Adjacent x.extent) →
      h.coalesceLeft s = some h → ∃ h' L' x', h.coalesceLeft s = some h' ∧
        Flight s h h' L' x' ∧ JoinLeft s h.ext h'.ext ∧ h'.nextId = h.nextId := fun hno hres =>
    ⟨h, L, x, hres, ⟨hi, hx, hfree, hsize, Keeps.refl h s, rfl⟩, ⟨_, hext, .inl ⟨rfl, hno⟩⟩, rfl⟩
  have hlook : ∀ l f, h.ext l = some f → f.Adjacent x.extent → h.pageMap (x.start - 1) = some l :=
    fun l f hf ha => by
      obtain ⟨y, hy, rfl⟩ := ext_some hf
      have hyb := hi.bounds l y hy
      refine hi.exact.index_eq hf ?_
      simp only [Extent.Adjacent, Extent.Mem, Span.extent] at ha ⊢
      omega
  cases hl : h.pageMap (x.start - 1) with
  | none =>
      refine hstay (fun l f hf _ ha => by rw [hlook l f hf ha] at hl; cases hl) ?_
      simp [coalesceLeft, hx, hxb.1, lookup, hl]
  | some l =>
      obtain ⟨f, hf, hq⟩ := (hi.exact _ _).mp hl
      obtain ⟨y, hy, rfl⟩ := ext_some hf
      have hne : l ≠ s := fun e => by
        subst e
        obtain rfl := Option.some.inj (hx.symm.trans hy)
        simp only [Extent.Mem, Span.extent] at hq
        omega
      by_cases hyf : y.isFree = true
      · have hyb := hi.bounds l y hy
        have hadj : y.start + y.numPages = x.start := by
          have := hi.exact.disjoint hf hext hne
          simp only [Extent.Mem, Span.extent] at hq this
          omega
        let z : Span := { x with start := y.start, numPages := x.numPages + y.numPages }
        obtain ⟨h₁, L', hrem, hx₁, hy₁, hinv, hkeep, hos, hnext, hext'⟩ :=
          join_spec (z := z) hi hx hy hyf hne
            (fun q => by simp only [z, Extent.Mem, Span.extent]; omega)
            (by simp only [z]; omega)
        refine ⟨joined h₁ s l x y z, L', z, ?_, ⟨hinv, ?_, hfree, hsize, hkeep, hos⟩,
          ⟨_, hext, .inr ⟨l, _, hne, hf, hyf, hadj, ?_⟩⟩, hnext⟩
        · simp [coalesceLeft, hx, hxb.1, lookup, hl, hy, hyf, hne, hrem, unregisterSpan,
            registerSpan, setPages_eq, hy₁, hx₁, PageHeap.set, delete, joined, z]
        · simp [joined, Ne.symm hne]
        · rw [hext']; simp [z, Span.extent, hfree]
      · refine hstay (fun l' f' hf' hfree' ha => ?_) ?_
        · obtain rfl : l' = l := Option.some.inj ((hlook l' f' hf' ha).symm.trans hl)
          obtain rfl := Option.some.inj (hf'.symm.trans hf)
          exact hyf hfree'
        · simp [coalesceLeft, hx, hxb.1, lookup, hl, hy, hyf]

theorem coalesceRight_spec (hi : Inv (· = s) h L) (hx : h.spans s = some x)
    (hfree : x.isFree = true) (hsize : x.size = 0) :
    ∃ h' L' x', h.coalesceRight s = some h' ∧ Flight s h h' L' x' ∧ JoinRight s h.ext h'.ext ∧
      h'.nextId = h.nextId := by
  have hxb := hi.bounds s x hx
  have hext := ext_eq hx
  have hstay : (∀ r f, h.ext r = some f → f.free = true → ¬ x.extent.Adjacent f) →
      h.coalesceRight s = some h → ∃ h' L' x', h.coalesceRight s = some h' ∧
        Flight s h h' L' x' ∧ JoinRight s h.ext h'.ext ∧ h'.nextId = h.nextId := fun hno hres =>
    ⟨h, L, x, hres, ⟨hi, hx, hfree, hsize, Keeps.refl h s, rfl⟩, ⟨_, hext, .inl ⟨rfl, hno⟩⟩, rfl⟩
  have hlook : ∀ r f, h.ext r = some f → x.extent.Adjacent f →
      h.pageMap (x.start + x.numPages) = some r := fun r f hf ha => by
    obtain ⟨y, hy, rfl⟩ := ext_some hf
    have hyb := hi.bounds r y hy
    refine hi.exact.index_eq hf ?_
    simp only [Extent.Adjacent, Extent.Mem, Span.extent] at ha ⊢
    omega
  cases hr : h.pageMap (x.start + x.numPages) with
  | none =>
      refine hstay (fun r f hf _ ha => by rw [hlook r f hf ha] at hr; cases hr) ?_
      simp [coalesceRight, hx, lookup, hr]
  | some r =>
      obtain ⟨f, hf, hq⟩ := (hi.exact _ _).mp hr
      obtain ⟨y, hy, rfl⟩ := ext_some hf
      have hne : r ≠ s := fun e => by
        subst e
        obtain rfl := Option.some.inj (hx.symm.trans hy)
        simp only [Extent.Mem, Span.extent] at hq
        omega
      by_cases hyf : y.isFree = true
      · have hyb := hi.bounds r y hy
        have hadj : x.start + x.numPages = y.start := by
          have := hi.exact.disjoint hf hext hne
          simp only [Extent.Mem, Span.extent] at hq this
          omega
        let z : Span := { x with numPages := x.numPages + y.numPages }
        obtain ⟨h₁, L', hrem, hx₁, hy₁, hinv, hkeep, hos, hnext, hext'⟩ :=
          join_spec (z := z) hi hx hy hyf hne
            (fun q => by simp only [z, Extent.Mem, Span.extent]; omega)
            (by simp only [z]; omega)
        refine ⟨joined h₁ s r x y z, L', z, ?_, ⟨hinv, ?_, hfree, hsize, hkeep, hos⟩,
          ⟨_, hext, .inr ⟨r, _, hne, hf, hyf, hadj, ?_⟩⟩, hnext⟩
        · simp [coalesceRight, hx, lookup, hr, hy, hyf, hne, hrem, unregisterSpan,
            registerSpan, setPages_eq, hy₁, hx₁, PageHeap.set, delete, joined, z]
        · simp [joined, Ne.symm hne]
        · rw [hext']; simp [z, Span.extent, hfree]
      · refine hstay (fun r' f' hf' hfree' ha => ?_) ?_
        · obtain rfl : r' = r := Option.some.inj ((hlook r' f' hf' ha).symm.trans hr)
          obtain rfl := Option.some.inj (hf'.symm.trans hf)
          exact hyf hfree'
        · simp [coalesceRight, hx, lookup, hr, hy, hyf]

/-! ### Cutting a span in two -/

/-- `h` after the span `s`, which held `x`, is cut into `s`, which then holds `x₁`, and a new span
that holds `x₂`. -/
def cut (h : PageHeap) (s : SpanId) (x x₁ x₂ : Span) : PageHeap :=
  { h with
    spans := Function.update (Function.update h.spans h.nextId (some x₂)) s (some x₁)
    nextId := h.nextId + 1
    pageMap := fill (fill (fill h.pageMap x.start x.numPages none) x₁.start x₁.numPages (some s))
      x₂.start x₂.numPages (some h.nextId) }

/-- **Cutting.**  A span on no list gives some of its pages to a new free span, which is then in
flight. -/
theorem cut_spec (x₁ x₂ : Span) (hi : Inv P h L) (hx : h.spans s = some x)
    (hsl : ∀ i, s ∉ L i) (hs : P s ∨ (x₁.isFree = false ∧ x₁.numPages ≤ maxPages))
    (hf : x₂.isFree = true)
    (hmem : ∀ q, x.extent.Mem q ↔ x₁.extent.Mem q ∨ x₂.extent.Mem q)
    (hdisj : ∀ q, x₁.extent.Mem q → ¬ x₂.extent.Mem q)
    (h₁ : 0 < x₁.start ∧ 0 < x₁.numPages ∧ x₁.start + x₁.numPages ≤ Os.pageLimit)
    (h₂ : 0 < x₂.start ∧ 0 < x₂.numPages ∧ x₂.start + x₂.numPages ≤ Os.pageLimit) :
    Inv (fun t => P t ∨ t = h.nextId) (cut h s x x₁ x₂) L ∧ Keeps h (cut h s x x₁ x₂) s ∧
      (cut h s x x₁ x₂).ext =
        Function.update (Function.update h.ext h.nextId (some x₂.extent)) s (some x₁.extent) ∧
      (cut h s x x₁ x₂).spans s = some x₁ ∧ (cut h s x x₁ x₂).spans h.nextId = some x₂ := by
  have hsn : s ≠ h.nextId := (hi.ids s x hx).ne
  have hnew : h.spans h.nextId = none := by
    by_contra hne
    obtain ⟨w, hw⟩ := Option.ne_none_iff_exists'.mp hne
    exact lt_irrefl _ (hi.ids _ w hw)
  have hspans_s : (cut h s x x₁ x₂).spans s = some x₁ := by simp [cut]
  have hspans_n : (cut h s x x₁ x₂).spans h.nextId = some x₂ := by simp [cut, Ne.symm hsn]
  have hspans : ∀ t, t ≠ s → t ≠ h.nextId → (cut h s x x₁ x₂).spans t = h.spans t :=
    fun t hts htn => by simp [cut, hts, htn]
  have hext : (cut h s x x₁ x₂).ext =
      Function.update (Function.update h.ext h.nextId (some x₂.extent)) s (some x₁.extent) := by
    funext t
    by_cases hts : t = s
    · subst hts; rw [Function.update_self, ext_eq hspans_s]
    · by_cases htn : t = h.nextId
      · subst htn; rw [Function.update_of_ne hts, Function.update_self, ext_eq hspans_n]
      · rw [Function.update_of_ne hts, Function.update_of_ne htn]
        simp only [ext, hspans t hts htn]
  have hlist : ∀ i, ∀ t ∈ L i, t ≠ s ∧ t ≠ h.nextId := fun i t ht => by
    refine ⟨fun e => hsl i (e ▸ ht), fun e => ?_⟩
    obtain ⟨w, hw⟩ := (hi.list i).exist t ht
    rw [e, hnew] at hw
    cases hw
  have hcases : ∀ t w, (cut h s x x₁ x₂).spans t = some w → (t = s ∧ w = x₁) ∨
      (t = h.nextId ∧ w = x₂) ∨ (t ≠ s ∧ t ≠ h.nextId ∧ h.spans t = some w) := fun t w hw => by
    by_cases hts : t = s
    · subst hts
      exact .inl ⟨rfl, (Option.some.inj (hspans_s.symm.trans hw)).symm⟩
    · by_cases htn : t = h.nextId
      · subst htn
        exact .inr (.inl ⟨rfl, (Option.some.inj (hspans_n.symm.trans hw)).symm⟩)
      · exact .inr (.inr ⟨hts, htn, hspans t hts htn ▸ hw⟩)
  refine ⟨hi.of_offList rfl (fun i t ht => hspans t (hlist i t ht).1 (hlist i t ht).2)
      (fun t i ht htl => ?_) (fun t w hw ht hwf => ?_) (fun t w hw ht => ?_) (fun t w hw => ?_)
      (fun t w hw => ?_) ?_ (fun q => ?_), fun t w hts hw => ?_, hext, hspans_s, hspans_n⟩
  · rcases ht with ht | rfl
    · exact hi.pending t i ht htl
    · exact (hlist i _ htl).2 rfl
  · rcases hcases t w hw with ⟨rfl, rfl⟩ | ⟨e, -⟩ | ⟨-, -, hw'⟩
    · rcases hs with hs | hs
      · exact absurd (.inl hs) ht
      · rw [hs.1] at hwf; cases hwf
    · exact absurd (.inr e) ht
    · exact hi.complete t w hw' (fun h => ht (.inl h)) hwf
  · rcases hcases t w hw with ⟨rfl, rfl⟩ | ⟨e, -⟩ | ⟨-, -, hw'⟩
    · rcases hs with hs | hs
      · exact absurd (.inl hs) ht
      · exact hs.2
    · exact absurd (.inr e) ht
    · exact hi.small t w hw' fun h => ht (.inl h)
  · rcases hcases t w hw with ⟨-, rfl⟩ | ⟨-, rfl⟩ | ⟨-, -, hw'⟩
    · exact h₁
    · exact h₂
    · exact hi.bounds t w hw'
  · have hlt : ∀ {t}, t < h.nextId → t < (cut h s x x₁ x₂).nextId := fun ht =>
      Nat.lt_succ_of_lt ht
    rcases hcases t w hw with ⟨rfl, -⟩ | ⟨rfl, -⟩ | ⟨-, -, hw'⟩
    · exact hlt (hi.ids t x hx)
    · exact Nat.lt_succ_self _
    · exact hlt (hi.ids t w hw')
  · -- unregister `s`, register both halves
    have he₁ := hi.exact.erase (ext_eq hx)
    have he₂ := he₁.enter (i := s) (e := x₁.extent) (by simp) fun q hq j =>
      he₁.none_iff.mp (fill_of_mem (e := x.extent) ((hmem q).mpr (.inl hq))) j
    rw [Function.update_idem] at he₂
    have he₃ := he₂.enter (i := h.nextId) (e := x₂.extent)
      (by rw [Function.update_of_ne (Ne.symm hsn)]; simp [ext, hnew]) fun q hq j =>
        he₂.none_iff.mp (by
          rw [fill_of_not_mem fun hq₁ => hdisj q hq₁ hq]
          exact fill_of_mem (e := x.extent) ((hmem q).mpr (.inr hq))) j
    rw [hext, Function.update_comm (Ne.symm hsn)]
    exact he₃
  · have hq := hi.owned q
    simp only [cut]
    by_cases hq₂ : x₂.extent.Mem q
    · rw [show fill _ x₂.start x₂.numPages (some h.nextId) q = _ from fill_of_mem hq₂, ← hq,
        hi.exact.index_eq (ext_eq hx) ((hmem q).mpr (.inr hq₂))]
      rfl
    · rw [show fill _ x₂.start x₂.numPages (some h.nextId) q = _ from fill_of_not_mem hq₂]
      by_cases hq₁ : x₁.extent.Mem q
      · rw [show fill _ x₁.start x₁.numPages (some s) q = _ from fill_of_mem hq₁, ← hq,
          hi.exact.index_eq (ext_eq hx) ((hmem q).mpr (.inl hq₁))]
      · rw [show fill _ x₁.start x₁.numPages (some s) q = _ from fill_of_not_mem hq₁,
          show fill _ x.start x.numPages none q = _ from
            fill_of_not_mem (e := x.extent) fun h => ((hmem q).mp h).elim hq₁ hq₂]
        exact hq
  · by_cases htn : t = h.nextId
    · subst htn
      rw [hspans_n, hnew]
      refine ⟨fun e => ?_, fun e => by cases e⟩
      obtain rfl := Option.some.inj e
      rw [hw] at hf
      cases hf
    · rw [hspans t hts htn]

/-- After the carving loop: `n` chunks of `MAX_PAGES` at the front went to the `n` spans named
from `f` on, and `s` keeps the rest. -/
def Carved (s f : Nat) (E E' : Extents Nat) (n : Nat) : Prop :=
  ∃ e, E s = some e ∧ maxPages * n < e.len ∧ e.len ≤ maxPages * (n + 1) ∧
    E' = fun t : Nat =>
      if t = s then some ⟨e.start + maxPages * n, e.len - maxPages * n, true⟩
      else if f ≤ t ∧ t < f + n then some ⟨e.start + maxPages * (t - f), maxPages, true⟩
      else E t

theorem Inv.congrP {P' : SpanId → Prop} (hi : Inv P h L) (hP : ∀ t, P t ↔ P' t) : Inv P' h L := by
  rwa [show P' = P from funext fun t => propext (hP t).symm]

/-- One round of the carving loop. -/
theorem carve_step (hi : Inv (· = s) h L) (hx : h.spans s = some x) (hfree : x.isFree = true)
    (hsize : x.size = 0) (hlt : maxPages < x.numPages) (fuel : Nat) :
    ∃ h' L', carve (fuel + 1) h s = carve fuel h' s ∧
      Flight s h h' L' { x with start := x.start + maxPages, numPages := x.numPages - maxPages } ∧
      h'.nextId = h.nextId + 1 ∧
      h'.ext = Function.update (Function.update h.ext h.nextId (some ⟨x.start, maxPages, true⟩)) s
        (some ⟨x.start + maxPages, x.numPages - maxPages, true⟩) := by
  have hxb := hi.bounds s x hx
  have hpos : 0 < maxPages := by decide
  let x₁ : Span := { x with start := x.start + maxPages, numPages := x.numPages - maxPages }
  let x₂ : Span := { start := x.start, numPages := maxPages, isFree := true }
  obtain ⟨hinv, hkeep, hext, hs₁, hs₂⟩ := cut_spec x₁ x₂ hi hx
    (fun i => hi.pending s i rfl) (.inl rfl) rfl
    (fun q => by simp only [x₁, x₂, Extent.Mem, Span.extent]; omega)
    (fun q => by simp only [x₁, x₂, Extent.Mem, Span.extent]; omega)
    (by simp only [x₁]; omega) (by simp only [x₂]; omega)
  have hsn : s ≠ h.nextId := (hi.ids s x hx).ne
  obtain ⟨h', L', hins, hinv', hpm, hos, hnext, hext', hkeep', hoff, _, _, hself⟩ :=
    insert_inv hinv (.inr rfl) hs₂ rfl (le_refl _) rfl
  refine ⟨h', L', ?_, ⟨hinv'.congrP fun t => ?_, ?_, hfree, hsize, ?_, hos⟩, hnext, ?_⟩
  · have hx₂ : ∀ v : Option Span, Function.update h.spans h.nextId v s = some x := fun v => by
      rw [Function.update_of_ne hsn, hx]
    have : h.nextId ≠ s := Ne.symm hsn
    simp only [carve, hx, Option.bind_eq_bind, Option.bind_some, if_pos hlt, PageHeap.new,
      unregisterSpan, registerSpan, setPages_eq, hx₂, PageHeap.set, Function.update_self,
      Function.update_of_ne this]
    simp only [cut, x₁, x₂] at hins
    rw [hins]
    rfl
  · constructor
    · rintro ⟨h | h, hne⟩
      · exact h
      · exact absurd h hne
    · rintro rfl
      exact ⟨.inl rfl, hsn⟩
  · rw [hoff s (.inl rfl) hsn, hs₁]
  · -- the chunk is free, so it is not one of the spans in use
    refine hkeep.trans fun t w ht hw => ?_
    by_cases htn : t = h.nextId
    · subst htn
      rw [hself, hs₂]
      refine ⟨fun e => ?_, fun e => ?_⟩ <;>
      · obtain rfl := Option.some.inj e
        cases hw
    · exact hkeep' t w htn hw
  · rw [hext', hext]
    simp only [x₁, x₂, Span.extent, hfree]

/-- **The carving loop** ends, with `s` fitting into `MAX_PAGES`. -/
theorem carve_spec : ∀ (fuel : Nat) {h : PageHeap} {L : Nat → List SpanId} {x : Span},
    Inv (· = s) h L → h.spans s = some x → x.isFree = true → x.size = 0 → x.numPages < fuel →
    ∃ h' L' x' n, carve fuel h s = some h' ∧ Flight s h h' L' x' ∧ x'.numPages ≤ maxPages ∧
      Carved s h.nextId h.ext h'.ext n ∧ h'.nextId = h.nextId + n
  | 0, _, _, _, _, _, _, _, hf => absurd hf (Nat.not_lt_zero _)
  | fuel + 1, h, L, x, hi, hx, hfree, hsize, hf => by
      by_cases hlt : maxPages < x.numPages
      · have hpos : 0 < maxPages := by decide
        obtain ⟨h₁, L₁, hstep, hfl, hnext, hext⟩ := carve_step hi hx hfree hsize hlt fuel
        obtain ⟨h', L', x', n, hc, hfl', hle, ⟨e, he, hn₁, hn₂, hE⟩, hnext'⟩ :=
          carve_spec fuel hfl.inv hfl.holds hfl.free hfl.size (by simp only; omega)
        have hsn : s < h.nextId := hi.ids s x hx
        rw [hext, Function.update_self] at he
        obtain rfl := (Option.some.inj he).symm
        dsimp only at hn₁ hn₂ hE
        refine ⟨h', L', x', n + 1, hstep.trans hc, ⟨hfl'.inv, hfl'.holds, hfl'.free, hfl'.size,
          hfl.keeps.trans hfl'.keeps, hfl'.os.trans hfl.os⟩, hle, ⟨x.extent, ext_eq hx, ?_, ?_, ?_⟩,
          by omega⟩
        · simp only [Span.extent, Nat.mul_add]
          omega
        · simp only [Span.extent, Nat.mul_add] at hn₂ ⊢
          omega
        · rw [hE]
          funext (t : Nat)
          by_cases hts : t = s
          · have e₁ : x.start + maxPages + maxPages * n = x.start + maxPages * (n + 1) := by
              rw [Nat.mul_add]; omega
            have e₂ : x.numPages - maxPages - maxPages * n = x.numPages - maxPages * (n + 1) := by
              rw [Nat.mul_add]; omega
            simp only [if_pos hts, Span.extent, e₁, e₂]
          · simp only [if_neg hts, hnext]
            by_cases htn : t = h.nextId
            · subst htn
              rw [if_neg (by omega), if_pos (by omega), hext, Function.update_of_ne hts,
                Function.update_self]
              simp [Span.extent]
            · by_cases hin : h.nextId + 1 ≤ t ∧ t < h.nextId + 1 + n
              · rw [if_pos hin, if_pos (by omega)]
                have e₁ : x.start + maxPages + maxPages * (t - (h.nextId + 1)) =
                    x.start + maxPages * (t - h.nextId) := by
                  rw [show t - h.nextId = t - (h.nextId + 1) + 1 by omega, Nat.mul_add]
                  omega
                simp only [Span.extent, e₁]
              · rw [if_neg hin, if_neg (by omega), hext, Function.update_of_ne hts,
                  Function.update_of_ne htn]
      · refine ⟨h, L, x, 0, by simp [carve, hx, hlt], ⟨hi, hx, hfree, hsize, Keeps.refl h s, rfl⟩,
          not_lt.mp hlt, ⟨x.extent, ext_eq hx, ?_, ?_, ?_⟩, rfl⟩
        · simpa [Span.extent] using (hi.bounds s x hx).2.1
        · simpa [Span.extent] using hlt
        · funext t
          by_cases hts : t = s
          · subst hts
            simp [ext_eq hx, Span.extent, hfree]
          · simp [hts]

/-- **Splitting** a span in use: it keeps its first `n` pages, and the rest is a new free span. -/
theorem split_spec {n : Nat} (hi : Inv (fun _ => False) h L) (hx : h.spans s = some x)
    (hu : x.isFree = false) (hn : 0 < n) (hlt : n < x.numPages) :
    ∃ h' L', h.split s n = some h' ∧ Inv (fun _ => False) h' L' ∧
      h'.spans s = some { x with numPages := n } ∧ Keeps h h' s ∧ h'.os = h.os ∧
      h'.ext = Function.update
        (Function.update h.ext h.nextId (some ⟨x.start + n, x.numPages - n, true⟩)) s
        (some ⟨x.start, n, false⟩) := by
  have hxb := hi.bounds s x hx
  have hle := hi.small s x hx (by simp)
  let x₁ : Span := { x with numPages := n }
  let x₂ : Span := { start := x.start + n, numPages := x.numPages - n, isFree := true }
  obtain ⟨hinv, hkeep, hext, hs₁, hs₂⟩ := cut_spec x₁ x₂ hi hx
    (fun i => hi.not_mem_of_used hx hu) (.inr ⟨hu, by simp only [x₁]; omega⟩) rfl
    (fun q => by simp only [x₁, x₂, Extent.Mem, Span.extent]; omega)
    (fun q => by simp only [x₁, x₂, Extent.Mem, Span.extent]; omega)
    (by simp only [x₁]; omega) (by simp only [x₂]; omega)
  have hsn : s ≠ h.nextId := (hi.ids s x hx).ne
  obtain ⟨h', L', hins, hinv', hpm, hos, hnext, hext', hkeep', hoff, _, _, hself⟩ :=
    insert_inv hinv (.inr rfl) hs₂ rfl (by simp only [x₂]; omega) rfl
  refine ⟨h', L', ?_, hinv'.congrP fun t => by simp, ?_, ?_, hos, ?_⟩
  · have hx₂ : ∀ v : Option Span, Function.update h.spans h.nextId v s = some x := fun v => by
      rw [Function.update_of_ne hsn, hx]
    have : h.nextId ≠ s := Ne.symm hsn
    simp only [split, hx, Option.bind_eq_bind, Option.bind_some, PageHeap.new,
      unregisterSpan, registerSpan, setPages_eq, hx₂, PageHeap.set, Function.update_self,
      Function.update_of_ne this, if_pos (show x.numPages - n ≤ maxPages by omega)]
    exact hins
  · exact (hkeep' s x₁ hsn hu).mpr hs₁
  · refine hkeep.trans fun t w ht hw => ?_
    by_cases htn : t = h.nextId
    · subst htn
      rw [hself, hs₂]
      refine ⟨fun e => ?_, fun e => ?_⟩ <;>
      · obtain rfl := Option.some.inj e
        cases hw
    · exact hkeep' t w htn hw
  · rw [hext', hext]
    simp only [x₁, x₂, Span.extent, hu]

end TieredAllocator.PageHeap
