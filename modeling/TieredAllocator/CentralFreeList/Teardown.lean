import TieredAllocator.CentralFreeList.Deallocate
import TieredAllocator.PageHeap.Destroy

/-!
# Central free list — the destructor

`~CentralFreeList` walks its list while it gives the spans back, and `return_span` writes the links
it walks along.  The walk is safe because it reads `next` before it gives a span back, and because
`return_span` leaves the spans in use as they are, which is what the rest of the list still is
(`destroyWalk_spec`).  After the destructors of all lists no span is in use
(`destroyFreeLists_spec`).
-/

namespace TieredAllocator
open Lib

namespace Backend

variable {b : Backend} {L : Nat → List SpanId} {s : SpanId} {x : Span}

/-- The spans `l`, chained from `head` and in use, are given back; the other spans in use stay. -/
theorem destroyWalk_spec (l : List SpanId) {b : Backend} {L : Nat → List SpanId}
    {head : Option SpanId} {fuel : Nat} (hi : PageHeap.Inv PageHeap.Rest b.pageHeap L)
    (hl : Forward (nextOf b.pageHeap.spans) head l) (nd : l.Nodup)
    (hused : ∀ s ∈ l, ∃ x, b.pageHeap.spans s = some x ∧ x.isFree = false) (hf : l.length < fuel) :
    ∃ h' L', destroyWalk fuel b head = some { b with pageHeap := h' } ∧
      PageHeap.Inv PageHeap.Rest h' L' ∧ h'.os = b.pageHeap.os ∧
      ∀ t x, x.isFree = false →
        (h'.spans t = some x ↔ t ∉ l ∧ b.pageHeap.spans t = some x) := by
  induction l generalizing b L head fuel with
  | nil =>
      obtain ⟨f, rfl⟩ : ∃ f, fuel = f + 1 := ⟨fuel - 1, by simp at hf; omega⟩
      obtain rfl := hl
      exact ⟨b.pageHeap, L, rfl, hi, rfl, by simp⟩
  | cons s l ih =>
      obtain ⟨f, rfl⟩ : ∃ f, fuel = f + 1 := ⟨fuel - 1, by simp at hf; omega⟩
      obtain ⟨rfl, hl⟩ := hl
      obtain ⟨hs, nd⟩ := List.nodup_cons.mp nd
      obtain ⟨x, hx, hu⟩ := hused s List.mem_cons_self
      rw [nextOf_eq hx] at hl
      -- the span is cleared, and is still in use
      let y : Span := { x with
        next := none
        prev := none
        freelistHead := invalidIndex
        numFreeObjects := 0
        totalObjects := 0
        nextUninitialized := 0 }
      have hi₀ : PageHeap.Inv PageHeap.Rest (b.pageHeap.set s y) L :=
        hi.set hx (fun i => hi.not_mem_of_used hx hu) rfl rfl (fun _ _ => Iff.rfl)
          fun h => ⟨hu, h⟩
      have hy : (b.pageHeap.set s y).spans s = some y := Function.update_self ..
      obtain ⟨h₁, L₁, hret, hi₁, hkeep, hfree, hos, -⟩ := PageHeap.returnSpan_spec hi₀ hy hu
      have hsame : ∀ t z, t ≠ s → z.isFree = false →
          (h₁.spans t = some z ↔ b.pageHeap.spans t = some z) := fun t z ht hz => by
        rw [hkeep t z ht hz, PageHeap.set]
        simp only [Function.update_of_ne ht]
      have hrest : ∀ t ∈ l, ∃ z, b.pageHeap.spans t = some z ∧ z.isFree = false ∧
          h₁.spans t = some z := fun t ht => by
        obtain ⟨z, hz, hzu⟩ := hused t (List.mem_cons_of_mem _ ht)
        exact ⟨z, hz, hzu, (hsame t z (fun e => hs (e ▸ ht)) hzu).mpr hz⟩
      obtain ⟨h', L', hres, hi', hos', hiff⟩ := ih (b := { b with pageHeap := h₁ }) hi₁
        (hl.congr fun t ht => by
          obtain ⟨z, hz, -, hz'⟩ := hrest t ht
          rw [nextOf_eq hz, nextOf_eq hz'])
        nd (fun t ht => by
          obtain ⟨z, -, hzu, hz'⟩ := hrest t ht
          exact ⟨z, hz', hzu⟩)
        (show l.length < f by simpa using hf)
      refine ⟨h', L', ?_, hi', hos'.trans hos, fun t z hz => ?_⟩
      · simp only [y] at hret
        simp only [destroyWalk, hx, Option.bind_eq_bind, Option.bind_some, hret]
        exact hres
      · rw [hiff t z hz, List.mem_cons, not_or, and_assoc]
        by_cases hts : t = s
        · subst hts
          refine iff_of_false (fun h => ?_) fun h => h.1 rfl
          rw [hfree z h.2] at hz
          cases hz
        · rw [and_iff_right hts]
          exact and_congr_right fun _ => hsame t z hts hz

/-- The destructors of the first `n` lists give back the spans on them. -/
theorem destroyFreeLists_spec (n : Nat) {b : Backend} {L S : Nat → List SpanId}
    (hi : PageHeap.Inv PageHeap.Rest b.pageHeap L)
    (hl : ∀ c < n, Forward (nextOf b.pageHeap.spans) (b.freeList c).spanList (S c) ∧ (S c).Nodup ∧
      ∀ s ∈ S c, ∃ x, b.pageHeap.spans s = some x ∧ x.isFree = false)
    (happart : ∀ c d s, s ∈ S c → s ∈ S d → c = d) :
    ∃ b' L', destroyFreeLists n b = some b' ∧ PageHeap.Inv PageHeap.Rest b'.pageHeap L' ∧
      b'.pageHeap.os = b.pageHeap.os ∧ ∀ t x, x.isFree = false →
        (b'.pageHeap.spans t = some x ↔ (∀ c < n, t ∉ S c) ∧ b.pageHeap.spans t = some x) := by
  induction n generalizing b L with
  | zero => exact ⟨b, L, rfl, hi, rfl, by simp⟩
  | succ n ih =>
      obtain ⟨hln, nd, hused⟩ := hl n (Nat.lt_succ_self n)
      have hfuel : (S n).length < b.pageHeap.walkFuel :=
        Nat.lt_succ_of_le (length_le_of_nodup_lt nd fun t ht => by
          obtain ⟨x, hx, -⟩ := hused t ht
          exact hi.ids t x hx)
      obtain ⟨h₁, L₁, hres₁, hi₁, hos₁, hiff₁⟩ := destroyWalk_spec (S n) hi hln nd hused hfuel
      let b₁ : Backend := ({ b with pageHeap := h₁ } : Backend).setList n
        { b.freeList n with spanList := none, currentSpan := none, numFree := 0 }
      have hkept : ∀ c < n, ∀ s ∈ S c, ∃ x, b.pageHeap.spans s = some x ∧ x.isFree = false ∧
          h₁.spans s = some x := fun c hc s hs => by
        obtain ⟨x, hx, hu⟩ := (hl c (by omega)).2.2 s hs
        refine ⟨x, hx, hu, (hiff₁ s x hu).mpr ⟨fun hsn => ?_, hx⟩⟩
        have := happart c n s hs hsn
        omega
      obtain ⟨b', L', hres, hi', hos, hiff⟩ := ih (b := b₁) hi₁ fun c hc => by
        have hne : c ≠ n := by omega
        obtain ⟨hlc, ndc, -⟩ := hl c (by omega)
        refine ⟨?_, ndc, fun s hs => ?_⟩
        · show Forward (nextOf h₁.spans) (Function.update b.freeList n _ c).spanList (S c)
          rw [Function.update_of_ne hne]
          refine hlc.congr fun s hs => ?_
          obtain ⟨x, hx, -, hx'⟩ := hkept c hc s hs
          rw [nextOf_eq hx, nextOf_eq hx']
        · obtain ⟨x, -, hu, hx'⟩ := hkept c hc s hs
          exact ⟨x, hx', hu⟩
      refine ⟨b', L', ?_, hi', hos.trans hos₁, fun t x hu => ?_⟩
      · simp only [destroyFreeLists, destroyFreeList, hres₁, Option.bind_eq_bind, Option.bind_some]
        exact hres
      · rw [hiff t x hu, show b₁.pageHeap = h₁ from rfl, hiff₁ t x hu, ← and_assoc]
        refine and_congr_left fun _ => ⟨fun h c hc => ?_, fun h => ?_⟩
        · rcases Nat.lt_succ_iff_lt_or_eq.mp hc with hc | rfl
          · exact h.1 c hc
          · exact h.2
        · exact ⟨fun c hc => h c (by omega), h n (Nat.lt_succ_self n)⟩

end Backend

end TieredAllocator
