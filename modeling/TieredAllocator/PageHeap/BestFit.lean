import TieredAllocator.PageHeap.Runs

/-!
# Page heap — best fit

`allocate_span` scores the spans of a list by the difference of their size to the size asked for.
Free spans have size 0, so the first span of the first non-empty list wins, and the lists are in
the order of addresses: the search finds the free span that comes first by length and then by
address.  Its first pages are the new span, the rest is one free span, and nothing else changes;
the kernel is asked only when no free span is long enough (`allocateSpan_bestFit`).
-/

namespace TieredAllocator.PageHeap
open Lib

/-- `h'` is `h` where the first `n` pages of the best fit for them are the span `s`, in use, and
the pages left over, if any, are one new free span. -/
def Reuses (h h' : PageHeap) (n size : Nat) (s : SpanId) : Prop :=
  ∃ x y, h.spans s = some x ∧ x.isFree = true ∧ BestFit h n x ∧ h'.os = h.os ∧
    h'.spans s = some y ∧ y.start = x.start ∧ y.numPages = n ∧ y.size = size ∧ y.isFree = false ∧
    (n < x.numPages → h.spans h.nextId = none ∧
      ∃ z, h'.spans h.nextId = some z ∧ z.start = x.start + n ∧ z.numPages = x.numPages - n ∧
        z.isFree = true) ∧
    ∀ t, t ≠ s → (n < x.numPages → t ≠ h.nextId) → h'.ext t = h.ext t

/-- `h'` is `h` where `n` pages that were not mapped are a new span, in use. -/
def Maps (k : Kernel) (h h' : PageHeap) (n size : Nat) (s : SpanId) : Prop :=
  ∃ start, (h.os.mmap k n).1 = some start ∧ (∀ q, start ≤ q → q < start + n →
      h.os.mapped q = false) ∧ h'.os = (h.os.mmap k n).2 ∧ h.spans s = none ∧
    h'.spans s = some { start := start, numPages := n, size := size } ∧
    ∀ t, t ≠ s → h'.ext t = h.ext t

theorem spans_nextId {h : PageHeap} {L : Nat → List SpanId} (hi : Inv Rest h L) :
    h.spans h.nextId = none := by
  by_contra hne
  obtain ⟨w, hw⟩ := Option.ne_none_iff_exists'.mp hne
  exact lt_irrefl _ (hi.ids _ w hw)

theorem Inv.reuses {h h' : PageHeap} {L : Nat → List SpanId} {n size : Nat} {s : SpanId}
    {x : Span} (hi : Inv Rest h L) (hx : h.spans s = some x) (hf : x.isFree = true)
    (hfit : BestFit h n x) (hs : h'.spans s = some { x with
      numPages := n, next := none, prev := none, size := size, isFree := false })
    (hos : h'.os = h.os)
    (hext : x.numPages = n ∧ h'.ext = Function.update h.ext s (some ⟨x.start, n, false⟩) ∨
      n < x.numPages ∧ h'.ext = Function.update
        (Function.update h.ext h.nextId (some ⟨x.start + n, x.numPages - n, true⟩)) s
        (some ⟨x.start, n, false⟩)) : Reuses h h' n size s := by
  have hsn : h.nextId ≠ s := (hi.ids s x hx).ne'
  refine ⟨x, _, hx, hf, hfit, hos, hs, rfl, rfl, rfl, rfl, fun hlt => ⟨spans_nextId hi, ?_⟩,
    fun t ht htn => ?_⟩
  · rcases hext with ⟨heq, -⟩ | ⟨-, hext⟩
    · omega
    · have hz := congrFun hext h.nextId
      rw [Function.update_of_ne hsn, Function.update_self, ext, Option.map_eq_some_iff] at hz
      obtain ⟨z, hz, hze⟩ := hz
      obtain ⟨h₁, h₂, h₃⟩ := Extent.mk.inj hze
      exact ⟨z, hz, h₁, h₂, h₃⟩
  · rcases hext with ⟨-, hext⟩ | ⟨hlt, hext⟩
    · rw [hext, Function.update_of_ne ht]
    · rw [hext, Function.update_of_ne ht, Function.update_of_ne (htn hlt)]

variable {foreign : Nat → Bool} {h : PageHeap} {cs : List Call}

/-- **Best fit, lowest address first.**  After each run, `allocate_span(n, size)` takes its pages
from the best fit without a system call, if a free span has `n` pages; otherwise it maps `n` fresh
pages and leaves the free spans as they are, or returns null with nothing changed. -/
theorem allocateSpan_bestFit (r : calls.Run (init foreign) cs h) (k : Kernel) {n size : Nat}
    (hn : 0 < n) (hle : n ≤ maxPages) (hsize : size < uint32Max) :
    ∃ res h', h.allocateSpan k n size = some (res, h') ∧
      ((∃ t y, h.spans t = some y ∧ y.isFree = true ∧ n ≤ y.numPages) →
        ∃ s, res = some s ∧ Reuses h h' n size s) ∧
      ((∀ t y, h.spans t = some y → y.isFree = true → y.numPages < n) →
        (∃ s, res = some s ∧ Maps k h h' n size s) ∨
          (h.os.mmap k n).1 = none ∧ res = none ∧ h' = { h with os := (h.os.mmap k n).2 }) := by
  obtain ⟨L, hi⟩ := Run.inv r
  obtain ⟨res, h', L', hres, -, hcase⟩ := allocateSpan_spec hi k n size
  refine ⟨res, h', hres, ?_⟩
  cases hcase with
  | rejected h => omega
  | @reused s x _ _ _ hx hf hfit hs _ hos hext =>
      refine ⟨fun _ => ⟨s, rfl, hi.reuses hx hf hfit hs hos hext⟩, fun hno => ?_⟩
      have := hno s x hx hf
      have := hfit.1
      omega
  | @mapped start _ hno hm hs _ hos hext =>
      refine ⟨fun ⟨t, y, hy, hf, hle⟩ => ?_, fun _ => .inl ⟨_, rfl, start, hm,
        (Os.mmap_fresh hm).2.2, hos, spans_nextId hi, hs, fun t ht => ?_⟩⟩
      · have := hno hsize t y hy hf
        omega
      · rw [hext, Function.update_of_ne ht]
  | failed hno hm heq =>
      refine ⟨fun ⟨t, y, hy, hf, hle⟩ => ?_, fun _ => .inr ⟨hm, rfl, heq⟩⟩
      have := hno hsize t y hy hf
      omega

/-- One page from the free span of four that `sampleCalls` leaves. -/
theorem allocateSpan_bestFit_sample : ∃ h, calls.Run (init fun _ => false) sampleCalls h ∧
    ∃ s h', h.allocateSpan (kernelOf []) 1 8 = some (some s, h') ∧ Reuses h h' 1 8 s := by
  have hfree : (calls.replay (init fun _ => false) sampleCalls).map (fun h =>
      (h.spans 0).map fun y => (y.isFree, y.numPages)) = some (some (true, 4)) := by
    decide +kernel
  obtain ⟨h, hrun, heq⟩ := Option.map_eq_some_iff.mp hfree
  obtain ⟨y, hy, heq⟩ := Option.map_eq_some_iff.mp heq
  obtain ⟨hf, hpages⟩ := Prod.mk.inj heq
  have r := System.Run.of_replay hrun
  obtain ⟨res, h', hres, hreuse, -⟩ :=
    allocateSpan_bestFit r (kernelOf []) (show 0 < 1 by decide) (by decide)
      (show 8 < uint32Max by decide)
  obtain ⟨s, rfl, hs⟩ := hreuse ⟨0, y, hy, hf, by omega⟩
  exact ⟨h, r, s, h', hres, hs⟩

end TieredAllocator.PageHeap
