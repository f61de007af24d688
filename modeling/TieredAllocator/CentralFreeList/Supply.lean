import TieredAllocator.CentralFreeList.Runs
import TieredAllocator.CentralFreeList.Stock

/-!
# Central free list — supply

A class with something in stock serves its next request from it.  The search finds a span with an
object whenever there is one (`Allocates.of_stock`), so the page heap is asked, once, only when the
stock is zero (`Allocates.of_empty`), and a batch that the page heap cannot help ends with the stock
(`allocateBatch_stock`).  `Central.nothing_stranded` puts these together for each state that the
calls reach.
-/

namespace TieredAllocator
open Lib

/-- The page heap can give a span of `n` pages: a free span is large enough, or the kernel maps
new pages. -/
def PageHeap.Supplies (k : Kernel) (h : PageHeap) (n : Nat) : Prop :=
  (∃ s x, h.spans s = some x ∧ x.isFree = true ∧ n ≤ x.numPages) ∨ (h.os.mmap k n).1 ≠ none

variable {table : Nat → SizeClassInfo} {b b' : Backend} {out : Nat → Multiset Nat}
  {L L' S S' : Nat → List SpanId} {c p : Nat} {s : SpanId} {x y : Span} {k : Kernel}
  {info : SizeClassInfo}

theorem PageHeap.Allocated.supplies {h h' : PageHeap} {n z : Nat}
    (ha : Allocated k h n z (Option.some s) h') : h.Supplies k n := by
  cases ha with
  | reused _ _ hx hf hfit _ _ _ _ => exact .inl ⟨s, _, hx, hf, hfit.1⟩
  | mapped _ hm _ _ _ _ => exact .inr (by rw [hm]; simp)

namespace Backend

/-! ### The stock of a list -/

/-- A list has something in stock exactly when a span of it has. -/
theorem stock_pos_iff (hi : Inv table b out L S) :
    0 < b.stock (S c) ↔ ∃ s ∈ S c, ∃ x, b.pageHeap.spans s = some x ∧ 0 < x.stock := by
  rw [Nat.pos_iff_ne_zero, stock, ne_eq, List.sum_eq_zero_iff, not_forall]
  constructor
  · rintro ⟨n, hn⟩
    obtain ⟨hmem, hne⟩ := Classical.not_imp.mp hn
    obtain ⟨s, hs, rfl⟩ := List.mem_map.mp hmem
    obtain ⟨x, hx, -⟩ := hi.used hs
    rw [hx] at hne
    exact ⟨s, hs, x, hx, Nat.pos_of_ne_zero hne⟩
  · rintro ⟨s, hs, x, hx, hpos⟩
    refine ⟨x.stock, fun h => ?_⟩
    have := h (List.mem_map.mpr ⟨s, hs, by rw [hx]; rfl⟩)
    omega

theorem exhausted_iff (hi : Inv table b out L S) : Exhausted b (S c) ↔ b.stock (S c) = 0 := by
  have hspan : ∀ s ∈ S c, ∀ x, b.pageHeap.spans s = some x →
      (x.hasAvailableObjects = false ↔ ¬ 0 < x.stock) := by
    intro s hs x hx
    obtain ⟨nodes, hex⟩ := (hi.serves c s x hs hx).exact
    rw [Span.stock_pos_iff hex, Bool.not_eq_true]
  have hpos := stock_pos_iff (c := c) hi
  rw [← not_iff_not, ← ne_eq, ← Nat.pos_iff_ne_zero, hpos]
  constructor
  · intro h
    simp only [Exhausted, not_forall] at h
    obtain ⟨s, hs, x, hx, hne⟩ := h
    exact ⟨s, hs, x, hx, Classical.not_not.mp fun h => hne ((hspan s hs x hx).mpr h)⟩
  · rintro ⟨s, hs, x, hx, hpos⟩ h
    exact (hspan s hs x hx).mp (h s hs x hx) hpos

/-- `p` is an object of a span of the list, and is not out. -/
def Available (b : Backend) (l : List SpanId) (o : Multiset Nat) (p : Nat) : Prop :=
  ∃ s ∈ l, ∃ x i, b.pageHeap.spans s = some x ∧ i < x.totalObjects ∧ p = x.addr i ∧ p ∉ o

/-- A span restocked in place leaves the number of objects. -/
theorem total_set {l : List SpanId} (hx : b.pageHeap.spans s = some x) (hy : x.Restocked y)
    (hb : b'.pageHeap = b.pageHeap.set s y) : b'.total l = b.total l := by
  rw [total, total, hb]
  refine congrArg List.sum (List.map_congr_left fun t _ => ?_)
  by_cases ht : t = s
  · subst ht
    simp [PageHeap.set, hx, hy.fields.2.2.2.1]
  · simp [PageHeap.set, ht]

/-! ### allocate -/

/-- **With something in stock** `allocate` takes an object of a span of the list, and the page heap
is not asked. -/
theorem Allocates.of_stock (hi : Inv table b out L S)
    (h : Allocates info k b c (out c) S p b' S') (hpos : 0 < b.stock (S c)) :
    S' = S ∧ p ≠ 0 ∧ Available b (S c) (out c) p ∧
      ∃ s x y, s ∈ S c ∧ b.pageHeap.spans s = some x ∧ x.Restocked y ∧
        b'.pageHeap = b.pageHeap.set s y := by
  have hnot : ¬ Exhausted b (S c) := fun h => by
    have := (exhausted_iff hi).mp h
    omega
  cases h with
  | barren hex _ _ _ => exact absurd hex hnot
  | missing hex _ => exact absurd hex hnot
  | took hch hcur hs hx ha hj hne hjo hy hw =>
      cases hch with
      | fetched hex _ _ _ _ => exact absurd hex hnot
      | missing hex _ => exact absurd hex hnot
      | listed _ _ _ => exact ⟨rfl, hne, ⟨_, hs, _, _, hx, hj, rfl, hjo⟩, _, _, _, hs, hx, hy, rfl⟩

/-- A span chosen with nothing in stock is a new one. -/
theorem Chosen.of_exhausted (h : Chosen info k b c S b' S') (hex : Exhausted b (S c))
    (hcur : (b'.freeList c).currentSpan = some s) :
    ∃ w h', PageHeap.Gives k b.pageHeap info.pages info.size (some s) h' ∧
      b' = b.linked c s h' w ∧ S' = Function.update S c (s :: S c) := by
  cases h with
  | listed hs hx ha =>
      have := hex _ hs _ hx
      rw [ha] at this
      cases this
  | @fetched t w h' _ hal _ _ _ =>
      obtain rfl : t = s := by simpa [linked, setList] using hcur
      exact ⟨w, h', hal, rfl, rfl⟩
  | missing _ _ => simp [cached, setList] at hcur

/-- **With nothing in stock** the page heap is asked once, and a span it gives is put in front. -/
theorem Allocates.of_empty (hi : Inv table b out L S)
    (h : Allocates info k b c (out c) S p b' S') (h0 : b.stock (S c) = 0)
    (hz : info.size ≠ 0) (hpg : info.pages ≠ 0) :
    ∃ r h', b.pageHeap.allocateSpan k info.pages info.size = some (r, h') ∧
      b'.pageHeap = { h' with spans := b'.pageHeap.spans } ∧
      S' = Function.update S c (r.toList ++ S c) ∧ (r = none → p = 0) := by
  cases h with
  | barren _ hal _ _ => exact ⟨_, _, hal.1, rfl, rfl, fun h => by cases h⟩
  | missing _ hwhy =>
      have hal := hwhy.resolve_left fun h => h.1.elim hz hpg
      exact ⟨none, _, hal.1, rfl, (Function.update_eq_self c S).symm, fun _ => rfl⟩
  | took hch hcur _ _ _ _ _ _ _ _ =>
      obtain ⟨w, h', hal, rfl, rfl⟩ := hch.of_exhausted ((exhausted_iff hi).mpr h0) hcur
      exact ⟨_, _, hal.1, rfl, rfl, fun h => by cases h⟩

/-- The stock drops by the object handed out. -/
theorem Allocates.stock_eq (hi : Inv table b out L S) (hi' : Inv table b' (gain out c p) L' S)
    (h : Allocates info k b c (out c) S p b' S) (hpos : 0 < b.stock (S c)) :
    b'.stock (S c) + 1 = b.stock (S c) := by
  obtain ⟨-, hne, -, s, x, y, -, hx, hy, hset⟩ := h.of_stock hi hpos
  have hbefore := hi.stock_add_out c
  have hafter := hi'.stock_add_out c
  rw [total_set hx hy hset, ← hbefore, gain, if_neg hne, Function.update_self,
    Multiset.card_cons] at hafter
  omega

/-- An object available after some have been handed out was available before. -/
theorem Available.before {l : List SpanId} {o o' : Multiset Nat} (hx : b.pageHeap.spans s = some x)
    (hy : x.Restocked y) (hb : b'.pageHeap = b.pageHeap.set s y) (ho : ∀ q ∈ o, q ∈ o')
    (h : Available b' l o' p) : Available b l o p := by
  obtain ⟨t, ht, w, i, hw, hiw, rfl, hp⟩ := h
  refine ⟨t, ht, ?_⟩
  by_cases hts : t = s
  · subst hts
    obtain rfl : y = w := by simpa [hb, PageHeap.set] using hw
    exact ⟨x, i, hx, hy.fields.2.2.2.1 ▸ hiw, hy.addr_eq i, fun h => hp (ho _ h)⟩
  · rw [hb] at hw
    exact ⟨w, i, by simpa [PageHeap.set, hts] using hw, hiw, rfl, fun h => hp (ho _ h)⟩

/-- **A batch** that the page heap cannot help returns as many objects as asked for, or the whole
stock. -/
theorem allocateBatch_stock (hok : ClassOk (table c)) (count : Nat) (hi : Inv table b out L S)
    (hno : ¬ b.pageHeap.Supplies k (table c).pages) :
    ∃ ps b', allocateBatch k c count b = some (ps, b') ∧
      ps.length = min count (b.stock (S c)) ∧ ps.Nodup ∧
      ∀ p ∈ ps, p ≠ 0 ∧ Available b (S c) (out c) p := by
  induction count generalizing b out L S with
  | zero => exact ⟨[], b, rfl, by simp, List.nodup_nil, by simp⟩
  | succ count ih =>
      obtain ⟨p, b₁, L₁, S₁, hres, hi₁, -, hal⟩ := allocate_cases hi hok k
      rcases Nat.eq_zero_or_pos (b.stock (S c)) with h0 | hpos
      · -- nothing in stock: the page heap is of no help, if it is asked
        have hp : p = 0 := by
          cases hal with
          | barren _ _ _ _ | missing _ _ => rfl
          | took hch hcur _ _ _ _ _ _ _ _ =>
              obtain ⟨w, h', hal, -⟩ := hch.of_exhausted ((exhausted_iff hi).mpr h0) hcur
              exact absurd hal.2.supplies hno
        refine ⟨[], b₁, ?_, by simp [h0], List.nodup_nil, by simp⟩
        simp [allocateBatch, hres, hp]
      · obtain ⟨rfl, hne, hav, s, x, y, hs, hx, hy, hset⟩ := hal.of_stock hi hpos
        have hstock := hal.stock_eq hi hi₁ hpos
        have hno₁ : ¬ b₁.pageHeap.Supplies k (table c).pages := by
          rintro (⟨t, w, hw, hf, hle⟩ | hm)
          · refine hno (.inl ?_)
            by_cases hts : t = s
            · subst hts
              obtain rfl : y = w := by simpa [hset, PageHeap.set] using hw
              obtain ⟨-, h₂, -, -, h₅, -, -⟩ := hy.fields
              exact ⟨t, x, hx, h₅ ▸ hf, h₂ ▸ hle⟩
            · exact ⟨t, w, by simpa [hset, PageHeap.set, hts] using hw, hf, hle⟩
          · rw [hset] at hm
            exact hno (.inr hm)
        obtain ⟨ps, b₂, hps, hlen, hnd, hall⟩ := ih hi₁ hno₁
        have hout : gain out c p c = p ::ₘ out c := by rw [gain, if_neg hne, Function.update_self]
        refine ⟨p :: ps, b₂, by simp [allocateBatch, hres, hne, hps], ?_, ?_, fun q hq => ?_⟩
        · rw [List.length_cons, hlen, ← hstock]
          omega
        · refine List.nodup_cons.mpr ⟨fun hp => ?_, hnd⟩
          obtain ⟨-, t, -, w, i, -, -, -, hnot⟩ := hall p hp
          exact hnot (by rw [hout]; exact Multiset.mem_cons_self p _)
        · rcases List.mem_cons.mp hq with rfl | hq
          · exact ⟨hne, hav⟩
          · refine ⟨(hall q hq).1, (hall q hq).2.before hx hy hset fun q hq => ?_⟩
            rw [hout]
            exact Multiset.mem_cons_of_mem hq

end Backend

namespace Central

variable {u : Central} {as : List CentralCall} {mem : Memory} {foreign : Nat → Bool}

/-- **No stranded objects.**  In each state that the calls reach, over any table of classes the
lists can serve: if a span on the list of a class has a free object or one not carved, `allocate`
returns an object of a span on the list, changes nothing of the page heap but the counters of that
span, and lowers the stock by one.  If no span has any, it asks the page heap for one span.  And
when the page heap cannot give one, a batch returns distinct objects of the list, as many as asked
for or the whole stock. -/
theorem nothing_stranded (hok : ∀ c, ClassOk (table c))
    (r : calls.Run (init mem foreign table) as u) (k : Kernel) (c : Nat) :
    ∃ l, SpanList u.backend.pageHeap.spans (u.backend.freeList c).spanList l ∧
      ((∃ s ∈ l, ∃ x, u.backend.pageHeap.spans s = some x ∧ 0 < x.stock) → ∃ p b',
        u.backend.allocate k c = some (p, b') ∧ p ≠ 0 ∧ u.backend.Available l (u.out c) p ∧
        (∃ s x y, s ∈ l ∧ u.backend.pageHeap.spans s = some x ∧ x.Restocked y ∧
          b'.pageHeap = u.backend.pageHeap.set s y) ∧
        SpanList b'.pageHeap.spans (b'.freeList c).spanList l ∧
        b'.stock l + 1 = u.backend.stock l) ∧
      ((∀ s ∈ l, ∀ x, u.backend.pageHeap.spans s = some x → x.stock = 0) →
        (table c).size ≠ 0 → (table c).pages ≠ 0 → ∃ p b' s h',
        u.backend.allocate k c = some (p, b') ∧
        u.backend.pageHeap.allocateSpan k (table c).pages (table c).size = some (s, h') ∧
        b'.pageHeap = { h' with spans := b'.pageHeap.spans } ∧
        SpanList b'.pageHeap.spans (b'.freeList c).spanList (s.toList ++ l) ∧
        (s = none → p = 0)) ∧
      (¬ u.backend.pageHeap.Supplies k (table c).pages → ∀ count, ∃ ps b',
        Backend.allocateBatch k c count u.backend = some (ps, b') ∧
        ps.length = min count (u.backend.stock l) ∧ ps.Nodup ∧
        ∀ p ∈ ps, p ≠ 0 ∧ u.backend.Available l (u.out c) p) := by
  obtain ⟨L, S, hi⟩ := r.invariant (I := Inv table) (fun hi ha h => step_inv hok hi ha h) inv_init
  obtain ⟨p, b', L', S', hres, hi', -, hal⟩ := Backend.allocate_cases hi (hok c) k
  have hpos := Backend.stock_pos_iff (c := c) hi
  refine ⟨S c, hi.list c, fun hstock => ?_, fun hnone hz hpg => ?_,
    fun hno count => Backend.allocateBatch_stock (hok c) count hi hno⟩
  · obtain ⟨rfl, hne, hav, hset⟩ := hal.of_stock hi (hpos.mpr hstock)
    exact ⟨p, b', hres, hne, hav, hset, hi'.list c, hal.stock_eq hi hi' (hpos.mpr hstock)⟩
  · have h0 : u.backend.stock (S c) = 0 := by
      by_contra hne
      obtain ⟨s, hs, x, hx, hlt⟩ := hpos.mp (Nat.pos_of_ne_zero hne)
      have := hnone s hs x hx
      omega
    obtain ⟨s, h', hspan, hpage, hS, hnull⟩ := hal.of_empty hi h0 hz hpg
    refine ⟨p, b', s, h', hres, hspan, hpage, ?_, hnull⟩
    have := hi'.list c
    rwa [hS, Function.update_self] at this

/-- After the run of `sampleCalls` the span of class 21 has three objects in stock, one of which is
returned while the kernel gives nothing. -/
theorem nothing_stranded_sample :
    ∃ u, calls.Run (init Memory.zero (fun _ => false) sizeClass) sampleCalls u ∧
      ∃ l p b', SpanList u.backend.pageHeap.spans (u.backend.freeList 21).spanList l ∧
        u.backend.allocate (fun _ => none) 21 = some (p, b') ∧ p ≠ 0 ∧
        u.backend.Available l (u.out 21) p ∧ b'.stock l + 1 = u.backend.stock l := by
  have h : (calls.replay (init Memory.zero (fun _ => false) sizeClass) sampleCalls).map
      (fun u => ((u.backend.freeList 21).spanList,
        (u.backend.pageHeap.spans 0).map Span.stock)) = some (some 0, some 3) := by
    decide +kernel
  obtain ⟨u, hu, heq⟩ := Option.map_eq_some_iff.mp h
  obtain ⟨hhead, hthree⟩ := Prod.mk.inj heq
  obtain ⟨x, hx, hxstock⟩ := Option.map_eq_some_iff.mp hthree
  obtain ⟨l, hl, hstock, -⟩ :=
    nothing_stranded sizeClass_classOk (System.Run.of_replay hu) (fun _ => none) 21
  obtain ⟨p, b', hres, hne, hav, -, -, hless⟩ :=
    hstock ⟨0, hl.head_mem hhead, x, hx, by omega⟩
  exact ⟨u, System.Run.of_replay hu, l, p, b', hl, hres, hne, hav, hless⟩

end Central

end TieredAllocator
