import Mathlib.Algebra.BigOperators.Group.Finset.Basic
import TieredAllocator.CentralFreeList.Allocate

/-!
# Central free list — stock

Counting the objects of a class.  The stock of a span is what it can still give, its free objects
and those not yet carved.  The objects of the spans on a list are those in stock and those handed
out (`Inv.stock_add_out`).
-/

namespace TieredAllocator
open Lib

variable {m : Memory} {x : Span} {nodes : List Nat} {O : Nat → Prop}

/-- Each carved object is free or out. -/
theorem PackedExact.free_add_out [DecidablePred O] (hp : PackedExact m x nodes O) :
    x.numFreeObjects + ((Finset.range x.totalObjects).filter O).card = x.nextUninitialized := by
  have hfree : (freeItems m x.base x.size nodes).toFinset =
      (Finset.range x.nextUninitialized).filter fun i => ¬ O i := by
    ext i
    rw [List.mem_toFinset, hp.free, Finset.mem_filter, Finset.mem_range]
  have hout : (Finset.range x.totalObjects).filter O =
      (Finset.range x.nextUninitialized).filter O := by
    ext i
    simp only [Finset.mem_filter, Finset.mem_range, and_congr_left_iff]
    exact fun hO => ⟨fun _ => hp.out i hO, fun h => lt_of_lt_of_le h hp.carved⟩
  have hsum := Finset.card_filter_add_card_filter_not (s := Finset.range x.nextUninitialized) O
  rw [← hfree, List.toFinset_card_of_nodup hp.nodup, ← hp.count, Finset.card_range] at hsum
  rw [hout]
  omega

namespace Span

/-- The objects the span can still give. -/
def stock (x : Span) : Nat := x.numFreeObjects + (x.totalObjects - x.nextUninitialized)

/-- It can give one exactly when `span_has_available_objects` says so. -/
theorem stock_pos_iff (hp : PackedExact m x nodes O) :
    0 < x.stock ↔ x.hasAvailableObjects = true := by
  have hcarved := hp.carved
  have hhead : 0 < x.numFreeObjects ↔ x.freelistHead ≠ invalidIndex := by
    by_cases hh : x.freelistHead = invalidIndex
    · have hnil : nodes = [] := (hh ▸ hp.list.chain).eq_nil
      have hzero := hp.count
      simp only [hnil, freeItems, items_nil, List.length_nil] at hzero
      exact iff_of_false (by omega) fun h => h hh
    · obtain ⟨l, hnodes, -⟩ := hp.list.chain.eq_cons hh
      have hcount := hp.count
      simp only [hnodes, freeItems, items_cons, List.cons_append, List.length_cons] at hcount
      exact iff_of_true (by omega) hh
  simp only [stock, hasAvailableObjects, Bool.or_eq_true, decide_eq_true_eq, ← hhead]
  omega

end Span

namespace Backend

/-- The stock of the spans of a list. -/
def stock (b : Backend) (l : List SpanId) : Nat :=
  (l.map fun s => ((b.pageHeap.spans s).map Span.stock).getD 0).sum

/-- The objects of the spans of a list. -/
def total (b : Backend) (l : List SpanId) : Nat :=
  (l.map fun s => ((b.pageHeap.spans s).map Span.totalObjects).getD 0).sum

variable {table : Nat → SizeClassInfo} {b b' : Backend} {out : Nat → Multiset Nat}
  {L S : Nat → List SpanId} {c : Nat} {s : SpanId}

namespace Inv

/-- The objects of a span that are out are those whose page leads to it. -/
theorem card_out_span (hi : Inv table b out L S) (hs : s ∈ S c) (hx : b.pageHeap.spans s = some x) :
    ((out c).toFinset.filter fun p => b.pageHeap.spanFor p = some s).card =
      ((Finset.range x.totalObjects).filter fun i => x.addr i ∈ out c).card := by
  have hsx := hi.serves c s x hs hx
  have hpos : 0 < x.size := lt_of_lt_of_le (by decide) hsx.roomy
  have himage : (out c).toFinset.filter (fun p => b.pageHeap.spanFor p = some s) =
      ((Finset.range x.totalObjects).filter fun i => x.addr i ∈ out c).image x.addr := by
    ext p
    simp only [Finset.mem_filter, Multiset.mem_toFinset, Finset.mem_image, Finset.mem_range]
    constructor
    · rintro ⟨hp, hfor⟩
      obtain ⟨t, y, i, ht, hy, hiy, rfl⟩ := hi.handed c p hp
      have hposy : 0 < y.size := lt_of_lt_of_le (by decide) (hi.serves c t y ht hy).roomy
      have hfor' := hi.spanFor_eq ht hy hiy (le_refl _) (Nat.lt_add_of_pos_right hposy)
      obtain rfl := Option.some.inj (hfor.symm.trans hfor')
      obtain rfl := Option.some.inj (hx.symm.trans hy)
      exact ⟨i, ⟨hiy, hp⟩, rfl⟩
    · rintro ⟨i, ⟨hix, hp⟩, rfl⟩
      exact ⟨hp, hi.spanFor_eq hs hx hix (le_refl _) (Nat.lt_add_of_pos_right hpos)⟩
  rw [himage]
  exact Finset.card_image_of_injOn fun i _ j _ h => hsx.addr_inj h

/-- **The objects of a class** are in stock or out. -/
theorem stock_add_out (hi : Inv table b out L S) (c : Nat) :
    b.stock (S c) + Multiset.card (out c) = b.total (S c) := by
  classical
  have hmaps : ∀ p ∈ (out c).toFinset,
      b.pageHeap.spanFor p ∈ (S c).toFinset.map Function.Embedding.some := by
    intro p hp
    obtain ⟨s, x, i, hs, hx, hix, rfl⟩ := hi.handed c p (Multiset.mem_toFinset.mp hp)
    have hpos : 0 < x.size := lt_of_lt_of_le (by decide) (hi.serves c s x hs hx).roomy
    rw [hi.spanFor_eq hs hx hix (le_refl _) (Nat.lt_add_of_pos_right hpos)]
    exact Finset.mem_map_of_mem _ (List.mem_toFinset.mpr hs)
  have hcard : Multiset.card (out c) = ((S c).map fun s =>
      ((out c).toFinset.filter fun p => b.pageHeap.spanFor p = some s).card).sum := by
    rw [← Multiset.toFinset_card_of_nodup (hi.nodup c),
      Finset.card_eq_sum_card_fiberwise hmaps, Finset.sum_map,
      ← List.sum_toFinset _ (hi.list c).nodup]
    rfl
  rw [hcard, stock, total, ← List.sum_map_add]
  refine congrArg List.sum (List.map_congr_left fun s hs => ?_)
  obtain ⟨x, hx, hsx⟩ := hi.used hs
  obtain ⟨nodes, hex⟩ := hsx.exact
  have hfree := (hex.free_add_out (O := x.Out (out c)))
  have hcarved := hex.carved
  have hsame : (Finset.range x.totalObjects).filter (x.Out (out c)) =
      (Finset.range x.totalObjects).filter fun i => x.addr i ∈ out c := by
    refine Finset.filter_congr fun i hi => ?_
    rw [Span.Out, and_iff_right (Finset.mem_range.mp hi)]
  rw [hi.card_out_span hs hx, hx]
  rw [hsame] at hfree
  simp only [Option.map_some, Option.getD_some, Span.stock]
  omega

end Inv

end Backend

end TieredAllocator
