import TieredAllocator.Allocator.Partition

/-!
# Allocator — the spans in use

The central free lists and the page heap link spans through the same two fields.  In each state
that any threads reach they agree on whose a span is (`SpansAgree`): the spans in use are those on
the lists of the size classes, each on one, with the data of its class; the free ones are those in
the buckets of the page heap; and each pointer a list keeps leads to a span on it.
-/

namespace TieredAllocator
open Lib

/-- `S c` is the list of spans of the class `c`. -/
structure SpansAgree (b : Backend) (S : Nat → List SpanId) : Prop where
  /-- each list is finite, acyclic and mirrored -/
  list : ∀ c, SpanList b.pageHeap.spans (b.freeList c).spanList (S c)
  /-- the spans registered in the page map and in use are those on the lists -/
  inUse : ∀ s, (∃ x q, b.pageHeap.spans s = some x ∧ b.pageHeap.pageMap q = some s ∧
    x.isFree = false) ↔ ∃ c < numSizeClasses, s ∈ S c
  apart : ∀ c d s, s ∈ S c → s ∈ S d → c = d
  data : ∀ c, ∀ s ∈ S c, ∃ x, b.pageHeap.spans s = some x ∧ x.isFree = false ∧
    x.size = (sizeClass c).size ∧ x.numPages = (sizeClass c).pages ∧
    ∀ q, x.start ≤ q → q < x.start + x.numPages → b.pageHeap.pageMap q = some s
  current : ∀ c s, (b.freeList c).currentSpan = some s → s ∈ S c
  /-- as `uint32_t` -/
  numFree : ∀ c, (b.freeList c).numFree = Backend.freeCount b.pageHeap.spans (S c) % 2 ^ 32
  /-- the links of a listed span lead to spans on the list -/
  links : ∀ c s x, s ∈ S c → b.pageHeap.spans s = some x →
    (∀ t, x.next = some t → t ∈ S c) ∧ ∀ t, x.prev = some t → t ∈ S c
  /-- no listed span is in a bucket of the page heap -/
  buckets : ∀ i l, SpanList b.pageHeap.spans (b.pageHeap.freeLists i) l → ∀ c, ∀ s ∈ l, s ∉ S c
  /-- each entry of the page map is an existing span that covers the page -/
  registered : ∀ q s, b.pageHeap.pageMap q = some s →
    ∃ x, b.pageHeap.spans s = some x ∧ x.start ≤ q ∧ q < x.start + x.numPages

theorem Backend.Inv.spansAgree {b : Backend} {out : Nat → Multiset Nat} {L S : Nat → List SpanId}
    (hi : Backend.Inv sizeClass b out L S) : SpansAgree b S := by
  have hpages : ∀ {s x}, b.pageHeap.spans s = some x → ∀ q, x.start ≤ q →
      q < x.start + x.numPages → b.pageHeap.pageMap q = some s := fun {s x} hx q h₁ h₂ =>
    (hi.heap.exact q s).mpr (PageHeap.covers_iff.mpr ⟨x, hx, h₁, h₂⟩)
  refine ⟨hi.list, fun s => ⟨?_, ?_⟩, hi.apart, fun c s hs => ?_, hi.current, hi.counted,
    fun c s x hs hx => ⟨fun t ht => ?_, fun t ht => ?_⟩, fun i l hl c s hs hsc => ?_,
    fun q s hq => PageHeap.covers_iff.mp ((hi.heap.exact q s).mp hq)⟩
  · rintro ⟨x, q, hx, -, hf⟩
    obtain ⟨c, hs⟩ := hi.complete s x hx hf
    refine ⟨c, ?_, hs⟩
    -- a class outside the table has no size
    have hsx := hi.serves c s x hs hx
    have hz := hsx.size_eq ▸ hsx.roomy
    by_contra hge
    rw [sizeClass, List.getD_eq_getElem?_getD, List.getElem?_eq_none (not_lt.mp hge)] at hz
    exact absurd hz (by decide)
  · rintro ⟨c, -, hs⟩
    obtain ⟨x, hx, hsx⟩ := hi.used hs
    have hpos := (hi.heap.bounds s x hx).2.1
    exact ⟨x, x.start, hx, hpages hx _ (le_refl _) (by omega), hsx.used⟩
  · obtain ⟨x, hx, hsx⟩ := hi.used hs
    exact ⟨x, hx, hsx.used, hsx.size_eq, hsx.pages_eq, hpages hx⟩
  · exact (hi.list c).linked.next_mem hs ((nextOf_eq hx).trans ht)
  · rcases (hi.list c).linked.prev_mem hs with h | ⟨y, hy, h⟩
    · rw [prevOf_eq hx, ht] at h
      cases h
    · rw [prevOf_eq hx, ht] at h
      exact Option.some.inj h ▸ hy
  · obtain rfl := hl.linked.unique (hi.heap.list i).linked
    obtain ⟨x, hx, hsx⟩ := hi.used hsc
    have := (hi.heap.listed i s x hs hx).1
    rw [hsx.used] at this
    cases this

/-- As long as a class has fewer than 2^32 free objects, `num_free` is their number.  Then no
decrement goes below zero: `allocate` takes one free object of a span from it, and a release all
those of a span. -/
theorem SpansAgree.numFree_exact {b : Backend} {S : Nat → List SpanId} {c : Nat}
    (h : SpansAgree b S) (hlt : Backend.freeCount b.pageHeap.spans (S c) < 2 ^ 32) :
    (b.freeList c).numFree = Backend.freeCount b.pageHeap.spans (S c) ∧
      ∀ s ∈ S c, ∀ x, b.pageHeap.spans s = some x → ∀ k ≤ x.numFreeObjects,
        sub32 (b.freeList c).numFree k + k = (b.freeList c).numFree := by
  have heq : (b.freeList c).numFree = Backend.freeCount b.pageHeap.spans (S c) :=
    (h.numFree c).trans (Nat.mod_eq_of_lt hlt)
  refine ⟨heq, fun s hs x hx k hk => ?_⟩
  have hle : x.numFreeObjects ≤ (b.freeList c).numFree := by
    rw [heq, Backend.freeCount_mem hs hx]
    exact Nat.le_add_left _ _
  rw [sub32]
  omega

variable {ι : Type} [Fintype ι]

/-- **Agreement.**  In each state that any number of threads reach, in any order of their atomic
steps, on any CPUs and with any answers of the kernel, the central free lists and the page heap
agree on the spans. -/
theorem spans_agree [DecidableEq ι] {mem : Memory} {foreign : Nat → Bool}
    {slabPage slabCount : Nat} {ls : List (Step ι Call Env ClientWrite)} {u : Process ι}
    (r : (Process.system ι).Run (Process.init ι mem foreign slabPage slabCount) ls u) :
    ∃ S, SpansAgree u.state.allocator.backend S := by
  obtain ⟨L, S, hb⟩ := (ok_of_run r).1.backend
  exact ⟨S, hb.spansAgree⟩

theorem spans_agree_sample : ∃ u : Process (Fin 2), ∃ S,
    SpansAgree u.state.allocator.backend S := by
  obtain ⟨u, -, r, -⟩ := sampleSteps_run
  exact ⟨u, spans_agree r⟩

end TieredAllocator
