import TieredAllocator.PageHeap.Operations

/-!
# Page heap — the destructor

`~PageHeap` walks the free lists and unmaps and deletes each span on them, once (`destroy_spec`).
When no span is in use, these are all spans there are: the ranges it unmaps are disjoint and make up
the pages the heap owns, and no span is left (`destroy_all`).
-/

namespace TieredAllocator
open Lib

namespace PageHeap

variable {h h' : PageHeap} {P : SpanId → Prop} {L : Nat → List SpanId} {l : List SpanId}
  {s : SpanId} {x : Span}

/-- The page ranges of the spans of a list: first page and number of pages. -/
def ranges (spans : SpanId → Option Span) (l : List SpanId) : List (Nat × Nat) :=
  l.filterMap fun s => (spans s).map fun x => (x.start, x.numPages)

/-- The calls that unmap the ranges, the last one first. -/
def unmaps (rs : List (Nat × Nat)) : List Syscall :=
  (rs.map fun r => Syscall.munmap r.1 r.2).reverse

theorem unmaps_append (rs rs' : List (Nat × Nat)) :
    unmaps (rs ++ rs') = unmaps rs' ++ unmaps rs := by
  rw [unmaps, List.map_append, List.reverse_append]
  rfl

theorem ranges_append (spans : SpanId → Option Span) (l l' : List SpanId) :
    ranges spans (l ++ l') = ranges spans l ++ ranges spans l' :=
  List.filterMap_append

theorem ranges_congr {spans spans' : SpanId → Option Span} (hs : ∀ t ∈ l, spans' t = spans t) :
    ranges spans' l = ranges spans l :=
  List.filterMap_congr fun t ht => by rw [hs t ht]

theorem mem_ranges {spans : SpanId → Option Span} {r : Nat × Nat} : r ∈ ranges spans l ↔
    ∃ s ∈ l, ∃ x, spans s = some x ∧ r = (x.start, x.numPages) := by
  simp only [ranges, List.mem_filterMap, Option.map_eq_some_iff]
  constructor
  · rintro ⟨s, hs, x, hx, rfl⟩
    exact ⟨s, hs, x, hx, rfl⟩
  · rintro ⟨s, hs, x, hx, rfl⟩
    exact ⟨s, hs, x, hx, rfl⟩

/-- The walk over one list unmaps and deletes its spans and no other. -/
theorem destroyList_spec (l : List SpanId) {h : PageHeap} {head : Option SpanId} {fuel : Nat}
    (hl : Forward (nextOf h.spans) head l) (nd : l.Nodup) (hex : ∀ t ∈ l, ∃ y, h.spans t = some y)
    (hf : l.length < fuel) : ∃ h', destroyList fuel h head = some h' ∧
      h'.freeLists = h.freeLists ∧ h'.nextId = h.nextId ∧
      h'.os = { h.os with trace := unmaps (ranges h.spans l) ++ h.os.trace } ∧
      ∀ t, h'.spans t = if t ∈ l then none else h.spans t := by
  induction l generalizing h head fuel with
  | nil =>
      obtain ⟨f, rfl⟩ : ∃ f, fuel = f + 1 := ⟨fuel - 1, by simp at hf; omega⟩
      obtain rfl := hl
      exact ⟨h, rfl, rfl, rfl, rfl, by simp⟩
  | cons c cs ih =>
      obtain ⟨f, rfl⟩ : ∃ f, fuel = f + 1 := ⟨fuel - 1, by simp at hf; omega⟩
      obtain ⟨rfl, hcs⟩ := hl
      obtain ⟨hc, ndcs⟩ := List.nodup_cons.mp nd
      obtain ⟨y, hy⟩ := hex c (by simp)
      rw [nextOf_eq hy] at hcs
      let h₁ : PageHeap :=
        { h with
          os := h.os.munmap y.start y.numPages
          spans := Function.update h.spans c none }
      have hag : ∀ t ∈ cs, h₁.spans t = h.spans t := fun t ht => by
        have : t ≠ c := fun e => hc (e ▸ ht)
        simp [h₁, this]
      obtain ⟨h', hres, hfl, hnx, hos, hsp⟩ := ih (h := h₁)
        (hcs.congr fun t ht => by simp [nextOf, hag t ht])
        ndcs (fun t ht => by rw [hag t ht]; exact hex t (by simp [ht]))
        (show cs.length < f by simpa using hf)
      refine ⟨h', ?_, hfl, hnx, ?_, fun t => ?_⟩
      · simpa [destroyList, hy, delete] using hres
      · have hrange : ranges h.spans (c :: cs) = [(y.start, y.numPages)] ++ ranges h.spans cs := by
          simp [ranges, hy]
        rw [hos, ranges_congr hag, hrange, unmaps_append, List.append_assoc]
        rfl
      · rw [hsp t]
        by_cases htc : t = c
        · subst htc; simp [hc, h₁]
        · simp [htc, h₁]

open Classical in
/-- The walks over the lists from `i` on, `n` of them. -/
theorem destroyLists_spec (n i : Nat) {h : PageHeap}
    (hl : ∀ j, i ≤ j → SpanList h.spans (h.freeLists j) (L j))
    (hdisj : ∀ j k t, t ∈ L j → t ∈ L k → j = k) (hids : ∀ j t, t ∈ L j → t < h.nextId) :
    ∃ h', destroyLists n i h = some h' ∧
      h'.os = { h.os with
        trace := unmaps (ranges h.spans ((List.range' i n).flatMap L)) ++ h.os.trace } ∧
      ∀ t, h'.spans t = if t ∈ (List.range' i n).flatMap L then none else h.spans t := by
  induction n generalizing i h with
  | zero => exact ⟨h, rfl, rfl, by simp⟩
  | succ n ih =>
      have hli := hl i (le_refl i)
      obtain ⟨h₁, hres₁, hfl₁, hnx₁, hos₁, hsp₁⟩ :=
        destroyList_spec (L i) hli.linked.forward hli.nodup
        hli.exist (show (L i).length < h.walkFuel from
          Nat.lt_succ_of_le (length_le_of_nodup_lt hli.nodup (hids i)))
      let h₂ : PageHeap := { h₁ with freeLists := Function.update h₁.freeLists i none }
      have hag : ∀ j, i + 1 ≤ j → ∀ t ∈ L j, h₂.spans t = h.spans t := fun j hj t ht => by
        have hti : t ∉ L i := fun hti => by
          have := hdisj j i t ht hti
          omega
        show h₁.spans t = h.spans t
        rw [hsp₁, if_neg hti]
      obtain ⟨h', hres, hos, hsp⟩ := ih (i + 1) (h := h₂)
        (fun j hj => by
          have hji : j ≠ i := by omega
          simp only [h₂, Function.update_of_ne hji, hfl₁]
          exact (hl j (by omega)).congr (hag j hj))
        (fun j t ht => by rw [show h₂.nextId = h.nextId from hnx₁]; exact hids j t ht)
      have hlater : ∀ t ∈ (List.range' (i + 1) n).flatMap L, h₂.spans t = h.spans t := by
        intro t ht
        obtain ⟨j, hj, htj⟩ := List.mem_flatMap.mp ht
        exact hag j (List.mem_range'_1.mp hj).1 t htj
      refine ⟨h', ?_, ?_, fun t => ?_⟩
      · simpa [destroyLists, hres₁] using hres
      · rw [hos, ranges_congr hlater, List.range'_succ, List.flatMap_cons, ranges_append,
          unmaps_append, List.append_assoc, show h₂.os = h₁.os from rfl, hos₁]
      · rw [hsp t, List.range'_succ, List.flatMap_cons]
        show (if _ then none else h₁.spans t) = _
        rw [hsp₁ t]
        by_cases hti : t ∈ L i
        · simp [hti]
        · simp [hti]

/-- The spans on the free lists. -/
def listedSpans (L : Nat → List SpanId) : List SpanId :=
  (List.range' 0 (maxPages + 1)).flatMap L

theorem Inv.mem_listedSpans (hi : Inv P h L) : s ∈ listedSpans L ↔ ∃ j, s ∈ L j := by
  rw [listedSpans, List.mem_flatMap]
  constructor
  · rintro ⟨j, -, hj⟩
    exact ⟨j, hj⟩
  · rintro ⟨j, hj⟩
    have := hi.le_of_mem hj
    exact ⟨j, List.mem_range'_1.mpr ⟨Nat.zero_le j, by omega⟩, hj⟩

theorem Inv.listedSpans_nodup (hi : Inv P h L) : (listedSpans L).Nodup := by
  refine List.nodup_flatMap.mpr ⟨fun j _ => (hi.list j).nodup, ?_⟩
  refine (List.nodup_range' (s := 0) (n := maxPages + 1)).imp fun {j k} hne => ?_
  exact List.disjoint_left.mpr fun t hj hk => hne (hi.eq_of_mem hj hk)

open Classical in
/-- **`~PageHeap`** terminates, and unmaps and deletes exactly the spans on the free lists. -/
theorem destroy_spec (hi : Inv P h L) : ∃ h', h.destroy = some h' ∧
    h'.os = { h.os with trace := unmaps (ranges h.spans (listedSpans L)) ++ h.os.trace } ∧
    ∀ t, h'.spans t = if ∃ j, t ∈ L j then none else h.spans t := by
  obtain ⟨h₁, hres, hos, hsp⟩ := destroyLists_spec (maxPages + 1) 0 (fun j _ => hi.list j)
    (fun j k t => hi.eq_of_mem) fun j t ht => by
      obtain ⟨y, hy⟩ := (hi.list j).exist t ht
      exact hi.ids t y hy
  refine ⟨{ h₁ with pageMap := fun _ => none }, ?_, hos, fun t => ?_⟩
  · simp only [destroy, hres, Option.bind_eq_bind, Option.bind_some]
  show h₁.spans t = _
  rw [hsp t]
  exact if_congr hi.mem_listedSpans rfl rfl

/-- **With no span in use**, the destructor deletes all spans; the ranges it unmaps are disjoint
and make up the pages the heap owns. -/
theorem destroy_all (hi : Inv P h L) (hall : ∀ s x, h.spans s = some x → ∃ j, s ∈ L j) :
    ∃ h' rs, h.destroy = some h' ∧ (∀ t, h'.spans t = none) ∧
      h'.os = { h.os with trace := unmaps rs ++ h.os.trace } ∧
      rs.Pairwise (fun r r' => r.1 + r.2 ≤ r'.1 ∨ r'.1 + r'.2 ≤ r.1) ∧
      ∀ q, (∃ r ∈ rs, r.1 ≤ q ∧ q < r.1 + r.2) ↔ h.os.owned q = true := by
  obtain ⟨h', hres, hos, hsp⟩ := destroy_spec hi
  refine ⟨h', _, hres, fun t => ?_, hos, ?_, fun q => ?_⟩
  · rw [hsp t]
    split
    · rfl
    · rename_i hnone
      cases hx : h.spans t with
      | none => rfl
      | some x => exact absurd (hall t x hx) hnone
  · rw [ranges, List.pairwise_filterMap]
    refine hi.listedSpans_nodup.imp fun {s t} hne r hr r' hr' => ?_
    obtain ⟨x, hx, rfl⟩ := Option.map_eq_some_iff.mp hr
    obtain ⟨y, hy, rfl⟩ := Option.map_eq_some_iff.mp hr'
    have hxb := hi.bounds s x hx
    have hyb := hi.bounds t y hy
    rcases hi.exact.disjoint (ext_eq hx) (ext_eq hy) hne with h | h | h | h <;>
      simp only [Span.extent] at h <;> omega
  · rw [← hi.owned q, Option.isSome_iff_exists]
    constructor
    · rintro ⟨r, hr, hq⟩
      obtain ⟨s, -, x, hx, rfl⟩ := mem_ranges.mp hr
      exact ⟨s, (hi.exact q s).mpr (covers_iff.mpr ⟨x, hx, hq⟩)⟩
    · rintro ⟨s, hs⟩
      obtain ⟨x, hx, hq⟩ := covers_iff.mp ((hi.exact q s).mp hs)
      exact ⟨_, mem_ranges.mpr ⟨s, hi.mem_listedSpans.mpr (hall s x hx), x, hx, rfl⟩, hq⟩

end PageHeap

end TieredAllocator
