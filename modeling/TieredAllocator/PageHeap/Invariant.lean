import TieredAllocator.Lib.Extents
import TieredAllocator.PageHeap.Links

/-!
# Page heap — the invariant

`h.Inv P L` is the invariant of the page heap.  `L i` is the list of spans chained from
`free_lists[i]`, and `P` names the spans in flight: `return_span` and `split` hold a free span
that is on no list yet and may be longer than `MAX_PAGES`.  At rest `P` is empty.

The data part lives over the extents of the spans (`PageHeap.ext`): the page map is an exact
index of them.  The link part lives over the lists.  The lemmas of this module are the moves the
operations are made of: changing a span on no list (`Inv.of_offList`), taking a span off its list
(`removeFromFreeList_spec`), and putting one on (`insert_inv`).
-/

namespace TieredAllocator
open Lib

def Span.extent (x : Span) : Extent := ⟨x.start, x.numPages, x.isFree⟩

namespace PageHeap

/-- The extents of the existing spans. -/
def ext (h : PageHeap) : Extents SpanId := fun s => (h.spans s).map Span.extent

/-- The spans in use in `h` and in `h'` are the same `Span` objects, fields included, `s` aside. -/
def Keeps (h h' : PageHeap) (s : SpanId) : Prop :=
  ∀ t x, t ≠ s → x.isFree = false → (h'.spans t = some x ↔ h.spans t = some x)

structure Inv (P : SpanId → Prop) (h : PageHeap) (L : Nat → List SpanId) : Prop where
  list : ∀ i, SpanList h.spans (h.freeLists i) (L i)
  increasing : ∀ i, Increasing h.spans (L i)
  /-- a listed span is free, of its list's length, and stores no objects -/
  listed : ∀ i s x, s ∈ L i → h.spans s = some x →
    x.isFree = true ∧ x.numPages = i ∧ x.size = 0
  short : ∀ i, maxPages < i → L i = []
  pending : ∀ s i, P s → s ∉ L i
  /-- a free span that is not in flight is on the list of its length -/
  complete : ∀ s x, h.spans s = some x → ¬ P s → x.isFree = true → s ∈ L x.numPages
  small : ∀ s x, h.spans s = some x → ¬ P s → x.numPages ≤ maxPages
  bounds : ∀ s x, h.spans s = some x →
    0 < x.start ∧ 0 < x.numPages ∧ x.start + x.numPages ≤ Os.pageLimit
  ids : ∀ s x, h.spans s = some x → s < h.nextId
  exact : Exact h.pageMap h.ext
  owned : ∀ q, (h.pageMap q).isSome = h.os.owned q

variable {h h' h'' : PageHeap} {P P' : SpanId → Prop} {L : Nat → List SpanId} {s t : SpanId}
  {x y z : Span} {i : Nat}

theorem Keeps.refl (h : PageHeap) (s : SpanId) : Keeps h h s := fun _ _ _ _ => Iff.rfl

theorem Keeps.trans (h₁ : Keeps h h' s) (h₂ : Keeps h' h'' s) : Keeps h h'' s :=
  fun t x ht hx => (h₂ t x ht hx).trans (h₁ t x ht hx)

theorem ext_eq (hx : h.spans s = some x) : h.ext s = some x.extent := by simp [ext, hx]

theorem ext_some {e : Extent} (he : h.ext s = some e) :
    ∃ x, h.spans s = some x ∧ x.extent = e := by
  simpa [ext, Option.map_eq_some_iff] using he

theorem ext_of_data (hd : (h'.spans s).map Span.data = (h.spans s).map Span.data) :
    h'.ext s = h.ext s :=
  Span.map_of_data (fun _ => rfl) hd

theorem covers_iff {q : Nat} :
    h.ext.Covers s q ↔ ∃ x, h.spans s = some x ∧ x.start ≤ q ∧ q < x.start + x.numPages := by
  constructor
  · rintro ⟨e, he, hq⟩
    obtain ⟨x, hx, rfl⟩ := ext_some he
    exact ⟨x, hx, hq⟩
  · rintro ⟨x, hx, hq⟩
    exact ⟨x.extent, ext_eq hx, hq⟩

/-- The registration loop fills the pages of the range. -/
theorem setPages_eq (m : Nat → Option SpanId) (a : Nat) (v : Option SpanId) :
    ∀ n, setPages m a n v = fill m a n v
  | 0 => by funext q; simp [setPages, fill]
  | n + 1 => by
      have ih := setPages_eq m a v n
      simp only [setPages] at ih
      simp only [setPages, List.range_succ, List.foldl_append, List.foldl_cons, List.foldl_nil, ih]
      funext q
      by_cases hq : q = a + n
      · subst hq; simp [fill]
      · simp only [Function.update_of_ne hq, fill]
        have : q < a + n ↔ q < a + (n + 1) := by omega
        simp only [this]

namespace Inv

/-- The empty heap. -/
theorem init (foreign : Nat → Bool) : Inv P (PageHeap.init foreign) fun _ => [] where
  list _ := SpanList.nil _
  increasing _ := List.Pairwise.nil
  listed _ _ _ hs := by simp at hs
  short _ _ := rfl
  pending _ _ _ := by simp
  complete _ _ hx := by simp [PageHeap.init] at hx
  small _ _ hx := by simp [PageHeap.init] at hx
  bounds _ _ hx := by simp [PageHeap.init] at hx
  ids _ _ hx := by simp [PageHeap.init] at hx
  exact q i := by simp [PageHeap.init, Extents.Covers, ext]
  owned q := by simp [PageHeap.init, Os.owned, ownedBy]

theorem mem_list (hi : Inv P h L) (hs : s ∈ L i) (hx : h.spans s = some x) : x.numPages = i :=
  (hi.listed i s x hs hx).2.1

/-- A span is on one list at most. -/
theorem eq_of_mem {j : Nat} (hi : Inv P h L) (hs : s ∈ L i) (hs' : s ∈ L j) : i = j := by
  obtain ⟨x, hx⟩ := (hi.list i).exist s hs
  rw [← hi.mem_list hs hx, ← hi.mem_list hs' hx]

/-- A span in use is on no list. -/
theorem not_mem_of_used (hi : Inv P h L) (hx : h.spans s = some x) (hu : x.isFree = false) :
    s ∉ L i := fun hs => by
  have := (hi.listed i s x hs hx).1
  rw [hu] at this
  cases this

theorem le_of_mem (hi : Inv P h L) (hs : s ∈ L i) : i ≤ maxPages := by
  by_contra hlt
  rw [hi.short i (by omega)] at hs
  simp at hs

/-- Distinct spans start at distinct pages. -/
theorem start_ne (hi : Inv P h L) (hx : h.spans s = some x) (hy : h.spans t = some y)
    (hst : s ≠ t) : x.start ≠ y.start := by
  intro e
  have hxb := hi.bounds s x hx
  have hyb := hi.bounds t y hy
  rcases hi.exact.disjoint (ext_eq hx) (ext_eq hy) hst with h | h | h | h <;>
    simp only [Span.extent] at h <;> omega

/-- Changing spans that are on no list: only the parts of the invariant that speak of all spans
are left to show. -/
theorem of_offList (hi : Inv P h L) (hfl : h'.freeLists = h.freeLists)
    (hag : ∀ i, ∀ t ∈ L i, h'.spans t = h.spans t)
    (hpend : ∀ s i, P' s → s ∉ L i)
    (hcomp : ∀ s x, h'.spans s = some x → ¬ P' s → x.isFree = true → s ∈ L x.numPages)
    (hsmall : ∀ s x, h'.spans s = some x → ¬ P' s → x.numPages ≤ maxPages)
    (hbounds : ∀ s x, h'.spans s = some x →
      0 < x.start ∧ 0 < x.numPages ∧ x.start + x.numPages ≤ Os.pageLimit)
    (hids : ∀ s x, h'.spans s = some x → s < h'.nextId)
    (hexact : Exact h'.pageMap h'.ext)
    (howned : ∀ q, (h'.pageMap q).isSome = h'.os.owned q) : Inv P' h' L where
  list i := by rw [hfl]; exact (hi.list i).congr (hag i)
  increasing i := (hi.increasing i).congr fun t ht => by rw [hag i t ht]
  listed i s x hs hx := hi.listed i s x hs (hag i s hs ▸ hx)
  short := hi.short
  pending := hpend
  complete := hcomp
  small := hsmall
  bounds := hbounds
  ids := hids
  exact := hexact
  owned := howned

/-- Writing to a span that is on no list, its pages left as they are. -/
theorem set (hi : Inv P h L) (hx : h.spans s = some x) (hs : ∀ i, s ∉ L i)
    (hstart : y.start = x.start) (hpages : y.numPages = x.numPages)
    (hP : ∀ t, t ≠ s → (P' t ↔ P t)) (hfree : ¬ P' s → y.isFree = false ∧ ¬ P s) :
    Inv P' (h.set s y) L := by
  have hne : ∀ {t z}, (h.set s y).spans t = some z → t ≠ s → h.spans t = some z := fun hz ht => by
    simpa [PageHeap.set, Function.update_of_ne ht] using hz
  have hself : ∀ {z}, (h.set s y).spans s = some z → z = y := fun hz => by
    simpa [PageHeap.set, eq_comm] using hz
  refine hi.of_offList rfl (fun i t ht => ?_) (fun t i hPt ht => ?_) (fun t z hz hPt hf => ?_)
    (fun t z hz hPt => ?_) (fun t z hz => ?_) (fun t z hz => ?_) ?_ hi.owned
  · have : t ≠ s := fun e => hs i (e ▸ ht)
    simp [PageHeap.set, this]
  · have hts : t ≠ s := fun e => hs i (e ▸ ht)
    exact hi.pending t i ((hP t hts).mp hPt) ht
  · by_cases hts : t = s
    · subst hts
      rw [hself hz, (hfree hPt).1] at hf
      cases hf
    · exact hi.complete t z (hne hz hts) (fun h => hPt ((hP t hts).mpr h)) hf
  · by_cases hts : t = s
    · subst hts
      rw [hself hz, hpages]
      exact hi.small t x hx (hfree hPt).2
    · exact hi.small t z (hne hz hts) fun h => hPt ((hP t hts).mpr h)
  · by_cases hts : t = s
    · subst hts
      rw [hself hz, hstart, hpages]
      exact hi.bounds t x hx
    · exact hi.bounds t z (hne hz hts)
  · by_cases hts : t = s
    · subst hts; exact hi.ids t x hx
    · exact hi.ids t z (hne hz hts)
  · refine hi.exact.congr fun t q => ?_
    rw [covers_iff, covers_iff]
    by_cases hts : t = s
    · subst hts
      simp [PageHeap.set, hx, hstart, hpages]
    · simp [PageHeap.set, hts]

end Inv

/-! ### Off a list and onto one -/

/-- **Taking a span off its list** marks it not free and clears its links; every other span keeps
its data, and the spans on no list are untouched. -/
theorem removeFromFreeList_spec (hi : Inv P h L) (hs : s ∈ L i) (hx : h.spans s = some x) :
    ∃ h', h.removeFromFreeList s = some h' ∧
      Inv P h' (Function.update L i ((L i).erase s)) ∧
      h'.pageMap = h.pageMap ∧ h'.os = h.os ∧ h'.nextId = h.nextId ∧
      h'.spans s = some { x with next := none, prev := none, isFree := false } ∧
      (∀ t, t ≠ s → (h'.spans t).map Span.data = (h.spans t).map Span.data) ∧
      (∀ t, t ∉ L i → h'.spans t = h.spans t) := by
  obtain ⟨hfree, rfl, hsize⟩ := hi.listed i s x hs hx
  have hle := hi.le_of_mem hs
  obtain ⟨spans', head', hun, hlist, hsame, hoff, hclear⟩ := unlink_spec (hi.list _) hs
  have hsx := hclear x hx
  let h' : PageHeap := { h with
    spans := Function.update spans' s (some { x with next := none, prev := none, isFree := false })
    freeLists := Function.update h.freeLists x.numPages head' }
  have hres : h.removeFromFreeList s = some h' := by
    simp only [removeFromFreeList, hx, Option.bind_eq_bind, Option.bind_some,
      if_neg (not_lt.mpr hle), hun, hsx, h', Span.data]
  have hdata : ∀ t, t ≠ s → (h'.spans t).map Span.data = (h.spans t).map Span.data := fun t ht => by
    simp only [h', Function.update_of_ne ht]
    exact hsame t
  have hsome : ∀ t y, t ≠ s → h'.spans t = some y → ∃ z, h.spans t = some z ∧ z.data = y.data :=
    fun t y ht hy => by
      have := hdata t ht
      rw [hy, Option.map_some, eq_comm, Option.map_eq_some_iff] at this
      exact this
  have hkeep : ∀ t, t ∉ L x.numPages → h'.spans t = h.spans t := fun t ht => by
    have hts : t ≠ s := fun e => ht (e ▸ hs)
    simp only [h', Function.update_of_ne hts]
    exact hoff t ht
  have herase : ∀ {t}, t ∈ (L x.numPages).erase s → t ≠ s ∧ t ∈ L x.numPages := fun ht =>
    ⟨((hi.list _).nodup.mem_erase_iff.mp ht).1, List.mem_of_mem_erase ht⟩
  have hself : h'.spans s = some { x with next := none, prev := none, isFree := false } := by
    simp [h']
  refine ⟨h', hres, ?_, rfl, rfl, rfl, hself, hdata, hkeep⟩
  have hmem : ∀ {j t}, t ∈ Function.update L x.numPages ((L x.numPages).erase s) j →
      t ≠ s ∧ t ∈ L j := fun {j t} ht => by
    by_cases hj : j = x.numPages
    · subst hj; rw [Function.update_self] at ht; exact herase ht
    · rw [Function.update_of_ne hj] at ht
      exact ⟨fun e => hj (hi.eq_of_mem (e ▸ ht) hs), ht⟩
  refine ⟨fun j => ?_, fun j => ?_, fun j t y ht hy => ?_, fun j hj => ?_, fun t j hPt ht => ?_,
    fun t y hy hPt hf => ?_, fun t y hy hPt => ?_, fun t y hy => ?_, fun t y hy => ?_, ?_, hi.owned⟩
  · by_cases hj : j = x.numPages
    · subst hj
      simp only [h', Function.update_self]
      exact hlist.congr fun t ht => Function.update_of_ne (herase ht).1 _ _
    · simp only [h', Function.update_of_ne hj]
      exact (hi.list j).congr fun t ht => hkeep t fun ht' => hj (hi.eq_of_mem ht ht')
  · by_cases hj : j = x.numPages
    · subst hj
      rw [Function.update_self]
      exact Increasing.congr ((hi.increasing _).sublist List.erase_sublist) fun t ht =>
        hdata t (herase ht).1
    · rw [Function.update_of_ne hj]
      exact (hi.increasing j).congr fun t ht => by
        rw [hkeep t fun ht' => hj (hi.eq_of_mem ht ht')]
  · obtain ⟨hts, htj⟩ := hmem ht
    obtain ⟨z, hz, ez⟩ := hsome t y hts hy
    obtain ⟨-, e₂, e₃, e₄⟩ := Span.data_inj ez
    rw [← e₂, ← e₃, ← e₄]
    exact hi.listed j t z htj hz
  · rw [Function.update_of_ne (by omega)]
    exact hi.short j hj
  · exact hi.pending t j hPt (hmem ht).2
  · by_cases hts : t = s
    · subst hts
      rw [hself] at hy
      obtain rfl := Option.some.inj hy
      cases hf
    · obtain ⟨z, hz, ez⟩ := hsome t y hts hy
      obtain ⟨-, e₂, -, e₄⟩ := Span.data_inj ez
      have := hi.complete t z hz hPt (e₄ ▸ hf)
      rw [e₂] at this
      by_cases hj : y.numPages = x.numPages
      · rw [hj] at this ⊢
        rw [Function.update_self]
        exact (List.mem_erase_of_ne hts).mpr this
      · rwa [Function.update_of_ne hj]
  · by_cases hts : t = s
    · subst hts
      rw [hself] at hy
      obtain rfl := Option.some.inj hy
      exact hle
    · obtain ⟨z, hz, ez⟩ := hsome t y hts hy
      rw [← (Span.data_inj ez).2.1]
      exact hi.small t z hz hPt
  · by_cases hts : t = s
    · subst hts
      rw [hself] at hy
      obtain rfl := Option.some.inj hy
      exact hi.bounds t x hx
    · obtain ⟨z, hz, ez⟩ := hsome t y hts hy
      obtain ⟨e₁, e₂, -, -⟩ := Span.data_inj ez
      rw [← e₁, ← e₂]
      exact hi.bounds t z hz
  · by_cases hts : t = s
    · subst hts; exact hi.ids t x hx
    · obtain ⟨z, hz, -⟩ := hsome t y hts hy
      exact hi.ids t z hz
  · refine hi.exact.congr fun t q => ?_
    by_cases hts : t = s
    · subst hts
      rw [covers_iff, covers_iff, hself, hx]
      simp
    · simp only [Extents.Covers, ext_of_data (hdata t hts)]

/-- The links of the lists do not reach a span in use. -/
theorem Keeps.of_offList (hi : Inv P h L)
    (hdata : ∀ t, t ≠ s → (h'.spans t).map Span.data = (h.spans t).map Span.data)
    (hoff : ∀ t, t ≠ s → t ∉ L i → h'.spans t = h.spans t) : Keeps h h' s := by
  intro t x ht hx
  constructor
  · intro hy
    have hd := hdata t ht
    rw [hy, Option.map_some, eq_comm, Option.map_eq_some_iff] at hd
    obtain ⟨z, hz, ez⟩ := hd
    have hzf : z.isFree = false := (Span.data_inj ez).2.2.2.trans hx
    rw [← hoff t ht (hi.not_mem_of_used hz hzf)]
    exact hy
  · intro hy
    rw [hoff t ht (hi.not_mem_of_used hy hx)]
    exact hy

/-- **Putting the span in flight on its list** ends its flight. -/
theorem insert_inv (hi : Inv P h L) (hP : P s) (hx : h.spans s = some x)
    (hsize : x.size = 0) (hle : x.numPages ≤ maxPages) (hfree : x.isFree = true) :
    ∃ h' L', h.insert x.numPages s = some h' ∧ Inv (fun t => P t ∧ t ≠ s) h' L' ∧
      h'.pageMap = h.pageMap ∧ h'.os = h.os ∧ h'.nextId = h.nextId ∧ h'.ext = h.ext ∧
      Keeps h h' s ∧ (∀ t, P t → t ≠ s → h'.spans t = h.spans t) ∧
      (∃ p c, h'.spans s = some { x with isFree := true, next := c, prev := p }) := by
  have hs : ∀ i, s ∉ L i := fun i => hi.pending s i hP
  obtain ⟨a, b, spans', head', hab, hins, hlist, hinc, hoff, hdata, p, c, hself⟩ :=
    insert_spec hle hx (hi.list x.numPages) (hs _)
      (fun t ht => by
        obtain ⟨y, hy⟩ := (hi.list _).exist t ht
        exact hi.ids t y hy)
      (hi.increasing _)
      (fun t ht y hy => (hi.start_ne hy hx fun e => hs _ (e ▸ ht)))
  have hmem : ∀ t, t ∈ a ++ s :: b ↔ t = s ∨ t ∈ L x.numPages := fun t => by
    rw [hab]; simp only [List.mem_append, List.mem_cons]; tauto
  have hsome : ∀ t y, t ≠ s → spans' t = some y → ∃ z, h.spans t = some z ∧ z.data = y.data :=
    fun t y ht hy => by
      have := hdata t ht
      rw [hy, Option.map_some, eq_comm, Option.map_eq_some_iff] at this
      exact this
  have hself' : ∀ y, spans' s = some y →
      y.start = x.start ∧ y.numPages = x.numPages ∧ y.size = 0 ∧ y.isFree = true := fun y hy => by
    obtain rfl := Option.some.inj (hself.symm.trans hy)
    exact ⟨rfl, rfl, hsize, rfl⟩
  have hext : (fun t => (spans' t).map Span.extent) = h.ext := by
    funext t
    by_cases hts : t = s
    · subst hts
      rw [hself, Option.map_some, ext_eq hx]
      simp [Span.extent, hfree]
    · show ({ h with spans := spans' } : PageHeap).ext t = h.ext t
      exact ext_of_data (hdata t hts)
  refine ⟨_, Function.update L x.numPages (a ++ s :: b), hins, ?_, rfl, rfl, rfl, hext,
    Keeps.of_offList hi hdata fun t hts ht => hoff t ht hts,
    fun t hPt hts => hoff t (hi.pending t _ hPt) hts, p, c, hself⟩
  refine ⟨fun j => ?_, fun j => ?_, fun j t y ht hy => ?_, fun j hj => ?_, fun t j hPt ht => ?_,
    fun t y hy hPt hf => ?_, fun t y hy hPt => ?_, fun t y hy => ?_, fun t y hy => ?_, ?_, hi.owned⟩
  · by_cases hj : j = x.numPages
    · subst hj
      simp only [Function.update_self]
      exact hlist
    · simp only [Function.update_of_ne hj]
      exact (hi.list j).congr fun t ht =>
        hoff t (fun ht' => hj (hi.eq_of_mem ht ht')) fun e => hs j (e ▸ ht)
  · by_cases hj : j = x.numPages
    · subst hj
      rw [Function.update_self]
      exact hinc
    · rw [Function.update_of_ne hj]
      exact (hi.increasing j).congr fun t ht => hdata t fun e => hs j (e ▸ ht)
  · by_cases hts : t = s
    · subst hts
      obtain ⟨-, e₂, e₃, e₄⟩ := hself' y hy
      refine ⟨e₄, e₂.trans ?_, e₃⟩
      by_contra hj
      rw [Function.update_of_ne (Ne.symm hj)] at ht
      exact hs j ht
    · obtain ⟨z, hz, ez⟩ := hsome t y hts hy
      obtain ⟨-, e₂, e₃, e₄⟩ := Span.data_inj ez
      rw [← e₂, ← e₃, ← e₄]
      refine hi.listed j t z ?_ hz
      by_cases hj : j = x.numPages
      · subst hj
        rw [Function.update_self] at ht
        exact ((hmem t).mp ht).resolve_left hts
      · rwa [Function.update_of_ne hj] at ht
  · rw [Function.update_of_ne (by omega)]
    exact hi.short j hj
  · by_cases hj : j = x.numPages
    · subst hj
      rw [Function.update_self] at ht
      exact hi.pending t _ hPt.1 (((hmem t).mp ht).resolve_left hPt.2)
    · rw [Function.update_of_ne hj] at ht
      exact hi.pending t j hPt.1 ht
  · by_cases hts : t = s
    · subst hts
      rw [(hself' y hy).2.1, Function.update_self]
      exact (hmem t).mpr (.inl rfl)
    · obtain ⟨z, hz, ez⟩ := hsome t y hts hy
      obtain ⟨-, e₂, -, e₄⟩ := Span.data_inj ez
      have := hi.complete t z hz (fun h => hPt ⟨h, hts⟩) (e₄ ▸ hf)
      rw [e₂] at this
      by_cases hj : y.numPages = x.numPages
      · rw [hj] at this ⊢
        rw [Function.update_self]
        exact (hmem t).mpr (.inr this)
      · rwa [Function.update_of_ne hj]
  · by_cases hts : t = s
    · subst hts
      rw [(hself' y hy).2.1]
      exact hle
    · obtain ⟨z, hz, ez⟩ := hsome t y hts hy
      rw [← (Span.data_inj ez).2.1]
      exact hi.small t z hz fun h => hPt ⟨h, hts⟩
  · by_cases hts : t = s
    · subst hts
      obtain ⟨e₁, e₂, -, -⟩ := hself' y hy
      rw [e₁, e₂]
      exact hi.bounds t x hx
    · obtain ⟨z, hz, ez⟩ := hsome t y hts hy
      obtain ⟨e₁, e₂, -, -⟩ := Span.data_inj ez
      rw [← e₁, ← e₂]
      exact hi.bounds t z hz
  · by_cases hts : t = s
    · subst hts; exact hi.ids t x hx
    · obtain ⟨z, hz, -⟩ := hsome t y hts hy
      exact hi.ids t z hz
  · exact hi.exact.congr fun t q => by
      simp only [Extents.Covers]
      rw [show ({ h with spans := spans', freeLists := _ } : PageHeap).ext = h.ext from hext]

end PageHeap

end TieredAllocator
