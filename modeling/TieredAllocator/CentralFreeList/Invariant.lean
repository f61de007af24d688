import Mathlib.Data.Multiset.Basic
import TieredAllocator.CentralFreeList.PackedList
import TieredAllocator.PageHeap.Operations

/-!
# Central free list — the invariant

`b.Inv table out L S` is the invariant of the central free lists and the page heap below them.
`S c` is the list of spans chained from the `span_list` of class `c`, `L` are the free lists of
the page heap, and the ghost `out c` holds the objects of class `c` that are handed out.  The
spans in use are split among the classes; each serves its class (`Span.Serves`): its packed list
holds exactly its carved objects that are not out.

Objects of different spans do not overlap (`Inv.addr_disjoint`), so a step inside one span leaves
the others as they are (`Inv.edit`).
-/

namespace TieredAllocator
open Lib

variable {m m' : Memory} {x y : Span} {i j p : Nat} {o o' : Multiset Nat} {info : SizeClassInfo}

/-! ### A span that serves a class -/

namespace Span

/-- Object `i` is out. -/
def Out (x : Span) (o : Multiset Nat) (i : Nat) : Prop := i < x.totalObjects ∧ x.addr i ∈ o

/-- `x` is in use for the class, and its list is exact. -/
structure Serves (info : SizeClassInfo) (m : Memory) (o : Multiset Nat) (x : Span) : Prop where
  used : x.isFree = false
  size_eq : x.size = info.size
  pages_eq : x.numPages = info.pages
  total : x.totalObjects = x.numPages * pageSize / x.size
  roomy : 8 ≤ x.size
  exact : ∃ nodes, PackedExact m x nodes (x.Out o)

/-- Equal data, equal up to links. -/
theorem eq_of_data (hd : y.data = x.data) : y = { x with next := y.next, prev := y.prev } := by
  cases x
  cases y
  simp only [data, Span.mk.injEq] at hd
  simp only [Span.mk.injEq]
  tauto

/-- As many objects as fit lie inside the pages. -/
theorem addr_inside (ht : x.totalObjects = x.numPages * pageSize / x.size)
    (hi : i < x.totalObjects) :
    x.base ≤ x.addr i ∧ x.addr i + x.size ≤ x.base + x.numPages * pageSize := by
  have hle : x.totalObjects * x.size ≤ x.numPages * pageSize := by
    rw [ht]
    exact Nat.div_mul_le_self _ _
  have := Nat.mul_le_mul_right x.size hi
  simp only [addr, indexToPtr, Nat.succ_mul] at *
  omega

namespace Serves

/-- Each object lies inside the pages of its span. -/
theorem inside (hs : Serves info m o x) (hi : i < x.totalObjects) :
    x.base ≤ x.addr i ∧ x.addr i + x.size ≤ x.base + x.numPages * pageSize :=
  addr_inside hs.total hi

theorem addr_inj (hs : Serves info m o x) (h : x.addr i = x.addr j) : i = j := by
  by_contra hne
  have hz := hs.roomy
  have := indexToPtr_disjoint x.base x.size hne
  simp only [addr] at h
  omega

/-- Only the objects that are not out, and which these are, matter. -/
theorem congr (hs : Serves info m o x)
    (hm : ∀ i, i < x.totalObjects → x.addr i ∉ o → SameSlot m m' x.base x.size i)
    (ho : ∀ i, i < x.totalObjects → (x.addr i ∈ o' ↔ x.addr i ∈ o)) : Serves info m' o' x := by
  obtain ⟨nodes, hex⟩ := hs.exact
  have hO : x.Out o' = x.Out o := by
    funext i
    exact propext (and_congr_right fun hi => ho i hi)
  refine ⟨hs.used, hs.size_eq, hs.pages_eq, hs.total, hs.roomy, nodes, ?_⟩
  rw [hO]
  exact hex.congr hs.roomy fun i hi hni => hm i hi fun h => hni ⟨hi, h⟩

/-- With one object more out. -/
theorem out_cons (hs : Serves info m o x) (hj : j < x.totalObjects) :
    (fun i => x.Out o i ∨ i = j) = x.Out (x.addr j ::ₘ o) := by
  funext i
  simp only [Out, Multiset.mem_cons]
  refine propext ⟨?_, ?_⟩
  · rintro (⟨h₁, h₂⟩ | rfl)
    · exact ⟨h₁, .inr h₂⟩
    · exact ⟨hj, .inl rfl⟩
  · rintro ⟨h₁, h₂ | h₂⟩
    · exact .inr (hs.addr_inj h₂)
    · exact .inl ⟨h₁, h₂⟩

/-- With one object less out. -/
theorem out_erase (hs : Serves info m o x) (hnd : o.Nodup) (j : Nat) :
    (fun i => x.Out o i ∧ i ≠ j) = x.Out (o.erase (x.addr j)) := by
  funext i
  simp only [Out, hnd.mem_erase_iff]
  refine propext ⟨?_, ?_⟩
  · rintro ⟨⟨h₁, h₂⟩, hne⟩
    exact ⟨h₁, fun e => hne (hs.addr_inj e), h₂⟩
  · rintro ⟨h₁, hne, h₂⟩
    exact ⟨⟨h₁, h₂⟩, fun e => hne (e ▸ rfl)⟩

/-- The links do not matter. -/
theorem of_data (hs : Serves info m o x) (hd : y.data = x.data) : Serves info m o y := by
  have hy := eq_of_data hd
  obtain ⟨h₁, h₂, h₃, h₄, h₅, nodes, hex⟩ := hs
  rw [hy]
  exact ⟨h₁, h₂, h₃, h₄, h₅, nodes, hex.list, hex.nodup, hex.free, hex.out, hex.carved, hex.small,
    hex.count⟩

end Serves

/-- What `Restocked` keeps. -/
theorem Restocked.fields (h : x.Restocked y) : y.start = x.start ∧ y.numPages = x.numPages ∧
    y.size = x.size ∧ y.totalObjects = x.totalObjects ∧ y.isFree = x.isFree ∧
    y.next = x.next ∧ y.prev = x.prev := by
  rw [Restocked] at h
  rw [h]
  exact ⟨rfl, rfl, rfl, rfl, rfl, rfl, rfl⟩

theorem Restocked.addr_eq (h : x.Restocked y) (i : Nat) : y.addr i = x.addr i := by
  obtain ⟨h₁, -, h₃, -⟩ := h.fields
  simp only [addr, base, h₁, h₃]

/-- The objects of a restocked span are the same. -/
theorem Restocked.freeSlot (h : x.Restocked y) {O : Nat → Prop} {a k : Nat} :
    FreeSlot y O a k ↔ FreeSlot x O a k := by
  obtain ⟨-, -, h₃, h₄, -⟩ := h.fields
  simp only [FreeSlot, h₃, h₄, h.addr_eq]

theorem Restocked.out_eq (h : x.Restocked y) (o : Multiset Nat) : y.Out o = x.Out o := by
  funext i
  simp only [Out, h.fields.2.2.2.1, h.addr_eq]

theorem Restocked.trans {z : Span} (h : x.Restocked y) (h' : y.Restocked z) : x.Restocked z := by
  rw [Restocked] at *
  rw [h', h]

end Span

/-! ### The page heap, where spans in use are edited -/

namespace PageHeap

variable {h : PageHeap} {L : Nat → List SpanId} {spans' : SpanId → Option Span}

/-- Editing spans in use, their pages apart, does not concern the page heap. -/
theorem Inv.retouch (hi : Inv Rest h L)
    (hfree : ∀ t w, h.spans t = some w → w.isFree = true → spans' t = some w)
    (hext : ∀ t, (spans' t).map Span.extent = (h.spans t).map Span.extent) :
    Inv Rest { h with spans := spans' } L := by
  have hback : ∀ t w, spans' t = some w → ∃ v, h.spans t = some v ∧ v.extent = w.extent := by
    intro t w hw
    have := hext t
    rw [hw, Option.map_some, eq_comm, Option.map_eq_some_iff] at this
    exact this
  have hextent : PageHeap.ext { h with spans := spans' } = h.ext := funext hext
  refine hi.of_offList rfl (fun i t ht => ?_) (fun t i ht => ht.elim) (fun t w hw _ hf => ?_)
    (fun t w hw _ => ?_) (fun t w hw => ?_) (fun t w hw => ?_) ?_ hi.owned
  · obtain ⟨w, hw⟩ := (hi.list i).exist t ht
    show spans' t = h.spans t
    rw [hfree t w hw (hi.listed i t w ht hw).1, hw]
  · obtain ⟨v, hv, he⟩ := hback t w hw
    simp only [Span.extent, Extent.mk.injEq] at he
    rw [← he.2.1]
    exact hi.complete t v hv (by simp) (he.2.2 ▸ hf)
  · obtain ⟨v, hv, he⟩ := hback t w hw
    simp only [Span.extent, Extent.mk.injEq] at he
    rw [← he.2.1]
    exact hi.small t v hv (by simp)
  · obtain ⟨v, hv, he⟩ := hback t w hw
    simp only [Span.extent, Extent.mk.injEq] at he
    rw [← he.1, ← he.2.1]
    exact hi.bounds t v hv
  · obtain ⟨v, hv, -⟩ := hback t w hw
    exact hi.ids t v hv
  · rw [hextent]
    exact hi.exact

/-- The page map leads from each address in the pages of a span to the span. -/
theorem Inv.spanFor_page (hi : Inv Rest h L) {s : SpanId} (hx : h.spans s = some x) {a : Nat}
    (h₁ : x.base ≤ a) (h₂ : a < x.base + x.numPages * pageSize) : h.spanFor a = some s := by
  have hpos : 0 < pageSize := by decide
  refine (hi.exact _ s).mpr (covers_iff.mpr ⟨x, hx, ?_, ?_⟩)
  · rw [Nat.le_div_iff_mul_le hpos]
    exact h₁
  · rw [Nat.div_lt_iff_lt_mul hpos, Nat.add_mul]
    exact h₂

/-- The page map leads from each address of an object to its span. -/
theorem Inv.spanFor_eq (hi : Inv Rest h L) {s : SpanId} (hx : h.spans s = some x)
    (ht : x.totalObjects = x.numPages * pageSize / x.size) (hj : i < x.totalObjects) {a : Nat}
    (h₁ : x.addr i ≤ a) (h₂ : a < x.addr i + x.size) : h.spanFor a = some s := by
  have hin := Span.addr_inside ht hj
  exact hi.spanFor_page hx (by omega) (by omega)

end PageHeap

/-! ### The invariant -/

namespace Backend

/-- The free objects of the spans of a list. -/
def freeCount (spans : SpanId → Option Span) (l : List SpanId) : Nat :=
  (l.map fun s => ((spans s).map Span.numFreeObjects).getD 0).sum

theorem freeCount_congr {spans spans' : SpanId → Option Span} {l : List SpanId}
    (h : ∀ t ∈ l, (spans' t).map Span.numFreeObjects = (spans t).map Span.numFreeObjects) :
    freeCount spans' l = freeCount spans l := by
  simp only [freeCount]
  rw [List.map_congr_left fun t ht => by rw [h t ht]]

theorem freeCount_of_data {spans spans' : SpanId → Option Span} {l : List SpanId}
    (h : ∀ t ∈ l, (spans' t).map Span.data = (spans t).map Span.data) :
    freeCount spans' l = freeCount spans l :=
  freeCount_congr fun t ht => Span.map_of_data (fun _ => rfl) (h t ht)

theorem freeCount_mem {spans : SpanId → Option Span} {l : List SpanId} {s : SpanId}
    (hs : s ∈ l) (hx : spans s = some x) :
    freeCount spans l = freeCount spans (l.erase s) + x.numFreeObjects := by
  have := (List.perm_cons_erase hs).map fun s => ((spans s).map Span.numFreeObjects).getD 0
  simp only [freeCount, this.sum_eq, List.map_cons, List.sum_cons, hx, Option.map_some,
    Option.getD_some]
  exact Nat.add_comm _ _

structure Inv (table : Nat → SizeClassInfo) (b : Backend) (out : Nat → Multiset Nat)
    (L S : Nat → List SpanId) : Prop where
  heap : PageHeap.Inv PageHeap.Rest b.pageHeap L
  config : ∀ c, (b.freeList c).size = (table c).size ∧ (b.freeList c).pages = (table c).pages
  list : ∀ c, SpanList b.pageHeap.spans (b.freeList c).spanList (S c)
  current : ∀ c s, (b.freeList c).currentSpan = some s → s ∈ S c
  serves : ∀ c s x, s ∈ S c → b.pageHeap.spans s = some x → x.Serves (table c) b.mem (out c)
  /-- a span is on one list at most -/
  apart : ∀ c d s, s ∈ S c → s ∈ S d → c = d
  /-- each span in use is on a list -/
  complete : ∀ s x, b.pageHeap.spans s = some x → x.isFree = false → ∃ c, s ∈ S c
  /-- what is out is an object of a span on the list of its class -/
  handed : ∀ c p, p ∈ out c →
    ∃ s x i, s ∈ S c ∧ b.pageHeap.spans s = some x ∧ i < x.totalObjects ∧ p = x.addr i
  nodup : ∀ c, (out c).Nodup
  /-- `num_free` counts the free objects of the list -/
  counted : ∀ c, (b.freeList c).numFree = freeCount b.pageHeap.spans (S c) % 2 ^ 32

variable {table : Nat → SizeClassInfo} {b b' : Backend} {out out' : Nat → Multiset Nat}
  {L L' S S' : Nat → List SpanId} {c d : Nat} {s t : SpanId}

namespace Inv

theorem init (mem : Memory) (foreign : Nat → Bool) (table : Nat → SizeClassInfo) :
    Inv table (Backend.init mem (PageHeap.init foreign) table) (fun _ => 0) (fun _ => [])
      (fun _ => []) where
  heap := PageHeap.Inv.init foreign
  config _ := ⟨rfl, rfl⟩
  list _ := SpanList.nil _
  current _ _ h := by simp [Backend.init] at h
  serves _ _ _ h := by simp at h
  apart _ _ _ h := by simp at h
  complete _ _ h := by simp [Backend.init, PageHeap.init] at h
  handed _ _ h := by simp at h
  nodup _ := Multiset.nodup_zero
  counted _ := rfl

theorem used (hi : Inv table b out L S) (hs : s ∈ S c) :
    ∃ x, b.pageHeap.spans s = some x ∧ x.Serves (table c) b.mem (out c) := by
  obtain ⟨x, hx⟩ := (hi.list c).exist s hs
  exact ⟨x, hx, hi.serves c s x hs hx⟩

theorem spanFor_eq (hi : Inv table b out L S) (hs : s ∈ S c) (hx : b.pageHeap.spans s = some x)
    (hj : i < x.totalObjects) {a : Nat} (h₁ : x.addr i ≤ a) (h₂ : a < x.addr i + x.size) :
    b.pageHeap.spanFor a = some s :=
  hi.heap.spanFor_eq hx (hi.serves c s x hs hx).total hj h₁ h₂

/-- The page map of another heap leads from an object to its span, if the span keeps its data. -/
theorem spanFor_kept (hi : Inv table b out L S) {h' : PageHeap}
    (hh : PageHeap.Inv PageHeap.Rest h' L') (ht : t ∈ S d) (hx : b.pageHeap.spans t = some x)
    (hd : (h'.spans t).map Span.data = (b.pageHeap.spans t).map Span.data)
    (hix : i < x.totalObjects) : h'.spanFor (x.addr i) = b.pageHeap.spanFor (x.addr i) := by
  have hsx := hi.serves d t x ht hx
  have hpos : x.addr i < x.addr i + x.size := Nat.lt_add_of_pos_right
    (lt_of_lt_of_le (by decide) hsx.roomy)
  obtain ⟨y, hy, hyx⟩ := Span.some_of_data hd hx
  rw [Span.eq_of_data hyx] at hy
  exact (hh.spanFor_eq hy hsx.total hix (le_refl _) hpos).trans
    (hi.spanFor_eq ht hx hix (le_refl _) hpos).symm

/-- Objects lie in pages the page heap owns. -/
theorem owned_of_addr (hi : Inv table b out L S) (hs : s ∈ S c)
    (hx : b.pageHeap.spans s = some x) (hj : i < x.totalObjects) {a : Nat} (h₁ : x.addr i ≤ a)
    (h₂ : a < x.addr i + x.size) : b.pageHeap.os.owned (a / pageSize) = true := by
  have hfor : b.pageHeap.pageMap (a / pageSize) = some s := hi.spanFor_eq hs hx hj h₁ h₂
  rw [← hi.heap.owned, hfor]
  rfl

/-- Objects of different spans do not overlap. -/
theorem addr_disjoint (hi : Inv table b out L S) (hs : s ∈ S c) (ht : t ∈ S d)
    (hx : b.pageHeap.spans s = some x) (hy : b.pageHeap.spans t = some y) (hst : s ≠ t)
    (hix : i < x.totalObjects) (hjy : j < y.totalObjects) :
    x.addr i + x.size ≤ y.addr j ∨ y.addr j + y.size ≤ x.addr i := by
  by_contra hcon
  simp only [not_or, not_le] at hcon
  have hxz := (hi.serves c s x hs hx).roomy
  have hyz := (hi.serves d t y ht hy).roomy
  -- the larger of the two addresses lies in both objects
  have h₁ := hi.spanFor_eq hs hx hix (a := max (x.addr i) (y.addr j)) (by omega) (by omega)
  have h₂ := hi.spanFor_eq ht hy hjy (a := max (x.addr i) (y.addr j)) (by omega) (by omega)
  exact hst (Option.some.inj (h₁.symm.trans h₂))

/-- An address is that of one object of one span at most. -/
theorem addr_unique (hi : Inv table b out L S) (hs : s ∈ S c) (ht : t ∈ S d)
    (hx : b.pageHeap.spans s = some x) (hy : b.pageHeap.spans t = some y)
    (hix : i < x.totalObjects) (hjy : j < y.totalObjects) (h : x.addr i = y.addr j) :
    s = t ∧ i = j := by
  by_cases hst : s = t
  · subst hst
    obtain rfl := Option.some.inj (hx.symm.trans hy)
    exact ⟨rfl, (hi.serves c s x hs hx).addr_inj h⟩
  · have hxz := (hi.serves c s x hs hx).roomy
    have hyz := (hi.serves d t y ht hy).roomy
    have := hi.addr_disjoint hs ht hx hy hst hix hjy
    omega

/-- An object that is out is not null. -/
theorem ne_zero (hi : Inv table b out L S) (hp : p ∈ out c) : p ≠ 0 := by
  obtain ⟨s, x, i, hs, hx, hix, rfl⟩ := hi.handed c p hp
  have hin := (hi.serves c s x hs hx).inside hix
  have hb := hi.heap.bounds s x hx
  have : 0 < x.base := Nat.mul_pos hb.1 (by decide)
  omega

/-! ### Moves -/

/-- **A step inside one span.**  The span `s` of class `c` becomes `y`, what is written lies in
objects of `s`, and what is out changes among these objects only. -/
theorem edit {O : Nat → Prop} (hi : Inv table b out L S) (hs : s ∈ S c)
    (hx : b.pageHeap.spans s = some x)
    (hy : x.Restocked y) {nodes : List Nat} (hex : PackedExact m' y nodes (x.Out (out' c)))
    (hw : Memory.Wrote (FreeSlot x O) b.mem m')
    (hout : ∀ d q, (d = c → ∀ i < x.totalObjects, q ≠ x.addr i) → (q ∈ out' d ↔ q ∈ out d))
    (hnd : ∀ d, (out' d).Nodup) {l : CentralFreeList} (hl : l.spanList = (b.freeList c).spanList)
    (hz : l.size = (b.freeList c).size) (hpg : l.pages = (b.freeList c).pages)
    (hcur : ∀ t, l.currentSpan = some t → t ∈ S c)
    (hnum : ∀ k, (b.freeList c).numFree = (k + x.numFreeObjects) % 2 ^ 32 →
      l.numFree = (k + y.numFreeObjects) % 2 ^ 32) :
    Inv table (({ b with mem := m' }.setSpan s y).setList c l) out' L S := by
  obtain ⟨h₁, h₂, h₃, h₄, h₅, h₆, h₇⟩ := hy.fields
  have hsx := hi.serves c s x hs hx
  have hO : y.Out (out' c) = x.Out (out' c) := hy.out_eq _
  have hself : Function.update b.pageHeap.spans s (some y) s = some y := by simp
  have hne : ∀ t, t ≠ s → Function.update b.pageHeap.spans s (some y) t = b.pageHeap.spans t :=
    fun t ht => by simp [ht]
  have hlist : ∀ d, (Function.update b.freeList c l d).spanList = (b.freeList d).spanList ∧
      (Function.update b.freeList c l d).size = (b.freeList d).size ∧
      (Function.update b.freeList c l d).pages = (b.freeList d).pages := by
    intro d
    by_cases hd : d = c
    · subst hd; simp [hl, hz, hpg]
    · simp [hd]
  -- an object of another span, or of another class, keeps its state
  have hother : ∀ d t w, t ∈ S d → t ≠ s → b.pageHeap.spans t = some w → ∀ i < w.totalObjects,
      (w.addr i ∈ out' d ↔ w.addr i ∈ out d) := by
    intro d t w ht hts hw i hiw
    refine hout d _ fun _ j hj e => hts ?_
    exact (hi.addr_unique ht hs hw hx hiw hj e).1
  refine ⟨?_, fun d => ?_, fun d => ?_, fun d t ht => ?_, fun d t w ht hwt => ?_, hi.apart,
    fun t w hwt hf => ?_, fun d q hq => ?_, hnd, fun d => ?_⟩
  · refine hi.heap.retouch (fun t w hw hf => ?_) fun t => ?_
    · have : t ≠ s := by
        rintro rfl
        obtain rfl := Option.some.inj (hx.symm.trans hw)
        rw [hsx.used] at hf
        cases hf
      rw [hne t this, hw]
    · by_cases hts : t = s
      · subst hts
        rw [hself, hx]
        simp [Span.extent, h₁, h₂, h₅]
      · rw [hne t hts]
  · exact ⟨(hlist d).2.1.trans (hi.config d).1, (hlist d).2.2.trans (hi.config d).2⟩
  · have hld := hi.list d
    show SpanList (Function.update b.pageHeap.spans s (some y))
      (Function.update b.freeList c l d).spanList (S d)
    rw [(hlist d).1]
    refine ⟨hld.linked.congr (fun t _ => ?_) (fun t _ => ?_), hld.nodup, fun t ht => ?_⟩
    · by_cases hts : t = s
      · subst hts
        rw [nextOf_eq hself, nextOf_eq hx, h₆]
      · simp only [nextOf, hne t hts]
    · by_cases hts : t = s
      · subst hts
        rw [prevOf_eq hself, prevOf_eq hx, h₇]
      · simp only [prevOf, hne t hts]
    · by_cases hts : t = s
      · exact ⟨y, hts ▸ hself⟩
      · rw [hne t hts]
        exact hld.exist t ht
  · by_cases hd : d = c
    · subst hd
      exact hcur t (by simpa [setList] using ht)
    · exact hi.current d t (by simpa [setList, setSpan, hd] using ht)
  · replace hwt : Function.update b.pageHeap.spans s (some y) t = some w := hwt
    by_cases hts : t = s
    · subst hts
      obtain rfl := Option.some.inj (hself.symm.trans hwt)
      obtain rfl := hi.apart d c t ht hs
      exact ⟨h₅.trans hsx.used, h₃.trans hsx.size_eq, h₂.trans hsx.pages_eq,
        by rw [h₄, h₂, h₃]; exact hsx.total, h₃ ▸ hsx.roomy, nodes, hO ▸ hex⟩
    · rw [hne t hts] at hwt
      have hst := hi.serves d t w ht hwt
      refine hst.congr (fun i hiw _ a ha₁ ha₂ => ?_) (hother d t w ht hts hwt)
      refine hw.byte_eq fun e k hslot => ?_
      obtain ⟨j, hj, -, hj₁, hj₂⟩ := hslot
      have := hi.addr_disjoint ht hs hwt hx hts hiw hj
      simp only [Span.addr] at this hj₁ hj₂
      omega
  · replace hwt : Function.update b.pageHeap.spans s (some y) t = some w := hwt
    by_cases hts : t = s
    · exact ⟨c, hts ▸ hs⟩
    · rw [hne t hts] at hwt
      exact hi.complete t w hwt hf
  · show ∃ t w i, t ∈ S d ∧ Function.update b.pageHeap.spans s (some y) t = some w ∧
      i < w.totalObjects ∧ q = w.addr i
    by_cases hdq : (d = c → ∀ i < x.totalObjects, q ≠ x.addr i)
    · obtain ⟨t, w, i, ht, hw, hiw, rfl⟩ := hi.handed d q ((hout d q hdq).mp hq)
      by_cases hts : t = s
      · subst hts
        obtain rfl := Option.some.inj (hx.symm.trans hw)
        exact ⟨t, y, i, ht, hself, h₄ ▸ hiw, (hy.addr_eq i).symm⟩
      · exact ⟨t, w, i, ht, (hne t hts).trans hw, hiw, rfl⟩
    · obtain ⟨rfl, hno⟩ := Classical.not_imp.mp hdq
      simp only [not_forall, ne_eq, not_not] at hno
      obtain ⟨i, hix, rfl⟩ := hno
      exact ⟨s, y, i, hs, hself, h₄ ▸ hix, (hy.addr_eq i).symm⟩
  · show (Function.update b.freeList c l d).numFree =
      freeCount (Function.update b.pageHeap.spans s (some y)) (S d) % 2 ^ 32
    have hrest : ∀ l : List SpanId, s ∉ l →
        freeCount (Function.update b.pageHeap.spans s (some y)) l =
          freeCount b.pageHeap.spans l :=
      fun l hl => freeCount_congr fun t ht => by rw [hne t fun e => hl (e ▸ ht)]
    by_cases hd : d = c
    · subst hd
      rw [Function.update_self, freeCount_mem hs hself,
        hrest _ fun h => ((hi.list d).nodup.mem_erase_iff.mp h).1 rfl]
      exact hnum _ ((hi.counted d).trans (by rw [freeCount_mem hs hx]))
    · rw [Function.update_of_ne hd, hi.counted d, hrest _ fun h => hd (hi.apart d c s h hs)]

/-- Caching a span of the list. -/
theorem setCurrent (hi : Inv table b out L S) (c : Nat) (cur : Option SpanId)
    (hcur : ∀ t, cur = some t → t ∈ S c) :
    Inv table (b.setList c { b.freeList c with currentSpan := cur }) out L S := by
  have hlist : ∀ d, ((b.setList c { b.freeList c with currentSpan := cur }).freeList d).spanList =
      (b.freeList d).spanList := fun d => by
    by_cases hd : d = c
    · subst hd; simp [setList]
    · simp [setList, hd]
  refine ⟨hi.heap, fun d => ?_, fun d => ?_, fun d t ht => ?_, hi.serves, hi.apart, hi.complete,
    hi.handed, hi.nodup, fun d => ?_⟩
  · by_cases hd : d = c
    · subst hd
      simpa [setList] using hi.config d
    · simpa [setList, hd] using hi.config d
  · rw [hlist d]
    exact hi.list d
  · by_cases hd : d = c
    · subst hd
      exact hcur t (by simpa [setList] using ht)
    · exact hi.current d t (by simpa [setList, hd] using ht)
  · by_cases hd : d = c
    · subst hd
      simpa [setList] using hi.counted d
    · simpa [setList, hd] using hi.counted d

/-- **A change of lists.**  Spans come and go; those that stay keep their data, those that come
serve their class, and those that go have nothing out. -/
theorem relist (hi : Inv table b out L S) (hmem : b'.mem = b.mem)
    (hheap : PageHeap.Inv PageHeap.Rest b'.pageHeap L')
    (hconfig : ∀ d, (b'.freeList d).size = (b.freeList d).size ∧
      (b'.freeList d).pages = (b.freeList d).pages)
    (hlist : ∀ d, SpanList b'.pageHeap.spans (b'.freeList d).spanList (S' d))
    (hcur : ∀ d t, (b'.freeList d).currentSpan = some t → t ∈ S' d)
    (hserves : ∀ d t y, t ∈ S' d → b'.pageHeap.spans t = some y →
      (t ∈ S d ∧ ∃ x, b.pageHeap.spans t = some x ∧ y.data = x.data) ∨
        y.Serves (table d) b.mem (out d))
    (happart : ∀ d e t, t ∈ S' d → t ∈ S' e → d = e)
    (hcomplete : ∀ t y, b'.pageHeap.spans t = some y → y.isFree = false → ∃ d, t ∈ S' d)
    (hstay : ∀ d t x i, t ∈ S d → b.pageHeap.spans t = some x → i < x.totalObjects →
      x.addr i ∈ out d → t ∈ S' d ∧ ∃ y, b'.pageHeap.spans t = some y ∧ y.data = x.data)
    (hcount : ∀ d, (b'.freeList d).numFree = freeCount b'.pageHeap.spans (S' d) % 2 ^ 32) :
    Inv table b' out L' S' := by
  refine ⟨hheap, fun d => ?_, hlist, hcur, fun d t y ht hy => ?_, happart, hcomplete,
    fun d q hq => ?_, hi.nodup, hcount⟩
  · exact ⟨(hconfig d).1.trans (hi.config d).1, (hconfig d).2.trans (hi.config d).2⟩
  · rw [hmem]
    rcases hserves d t y ht hy with ⟨hts, x, hx, hd⟩ | h
    · exact (hi.serves d t x hts hx).of_data hd
    · exact h
  · obtain ⟨t, x, i, ht, hx, hix, rfl⟩ := hi.handed d q hq
    obtain ⟨ht', y, hy, hd⟩ := hstay d t x i ht hx hix hq
    have hyx := Span.eq_of_data hd
    exact ⟨t, y, i, ht', hy, by rw [hyx]; exact hix, by rw [hyx]; rfl⟩

/-- The bytes of the pages the page heap owns are all that matter of the memory. -/
theorem remem (hi : Inv table b out L S)
    (hm : ∀ a, b.pageHeap.os.owned (a / pageSize) = true → m'.byte a = b.mem.byte a) :
    Inv table { b with mem := m' } out L S := by
  refine ⟨hi.heap, hi.config, hi.list, hi.current, fun d t w ht hw => ?_, hi.apart, hi.complete,
    hi.handed, hi.nodup, hi.counted⟩
  refine (hi.serves d t w ht hw).congr (fun j hj _ a h₁ h₂ => hm a ?_) fun _ _ => Iff.rfl
  exact hi.owned_of_addr ht hw hj h₁ h₂

/-- A client writes inside an object that is out. -/
theorem clientWrite (hi : Inv table b out L S) (hs : s ∈ S c) (hx : b.pageHeap.spans s = some x)
    (hix : i < x.totalObjects) (hp : x.addr i ∈ out c) {a k : Nat} (h₁ : x.addr i ≤ a)
    (h₂ : a + k ≤ x.addr i + x.size) (v : Nat) :
    Inv table { b with mem := b.mem.store a k v } out L S := by
  refine ⟨hi.heap, hi.config, hi.list, hi.current, fun d t w ht hw => ?_, hi.apart, hi.complete,
    hi.handed, hi.nodup, hi.counted⟩
  refine (hi.serves d t w ht hw).congr (fun j hj hjo e he₁ he₂ => ?_) fun _ _ => Iff.rfl
  refine Memory.store_byte_of_not_mem fun he => ?_
  by_cases hts : t = s
  · subst hts
    obtain rfl := Option.some.inj (hx.symm.trans hw)
    obtain rfl := hi.apart d c t ht hs
    have hne : j ≠ i := fun e => hjo (e ▸ hp)
    have := indexToPtr_disjoint x.base x.size hne
    simp only [Span.addr] at *
    omega
  · have := hi.addr_disjoint ht hs hw hx hts hj hix
    simp only [Span.addr] at *
    omega

end Inv

end Backend

end TieredAllocator
