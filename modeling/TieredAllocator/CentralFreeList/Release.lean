import TieredAllocator.CentralFreeList.Runs

/-!
# Central free list — release

`deallocate` gives a span back when its free objects are as many as its objects.  The free objects
are counted among the carved ones, so when the last object comes back the two numbers agree
exactly when the span was carved to its end (`busy_step`).  Over whole runs: the lists hold only
spans with an object out exactly when each span was carved to its end by the time its last object
came back (`busy_throughout_iff`).  For classes of several pages this fails after one object
(`busy_fails`).
-/

namespace TieredAllocator
open Lib

/-- How many objects a span of the class holds. -/
def spanObjects (info : SizeClassInfo) : Nat := info.pages * pageSize / info.size

namespace Central

variable {table : Nat → SizeClassInfo} {u u' : Central} {a : CentralCall} {as : List CentralCall}
  {c : Nat} {s : SpanId} {mem : Memory} {foreign : Nat → Bool} {L S : Nat → List SpanId}

/-- Each span on the list of a class whose spans hold objects has an object out. -/
def Busy (table : Nat → SizeClassInfo) (u : Central) : Prop :=
  ∀ c l, 0 < spanObjects (table c) →
    SpanList u.backend.pageHeap.spans (u.backend.freeList c).spanList l →
    ∀ s ∈ l, ∃ x i, u.backend.pageHeap.spans s = some x ∧ i < x.totalObjects ∧
      x.addr i ∈ u.out c

/-- When the last object of a span comes back, the span is carved to its end. -/
def CarvedAtLast (u : Central) : CentralCall → Prop
  | .deallocate c ptr => ∀ s x, u.backend.pageHeap.spanFor ptr = some s →
      u.backend.pageHeap.spans s = some x →
      (∀ i < x.totalObjects, x.addr i ∈ u.out c → x.addr i = ptr) →
      x.nextUninitialized = x.totalObjects
  | _ => True

/-- `Busy` in terms of the page map. -/
theorem busy_iff (hi : Backend.Inv table u.backend u.out L S) :
    Busy table u ↔ ∀ c, 0 < spanObjects (table c) → ∀ s ∈ S c,
      ∃ p ∈ u.out c, u.backend.pageHeap.spanFor p = some s := by
  constructor
  · intro hb c hc s hs
    obtain ⟨x, i, hx, hix, hp⟩ := hb c (S c) hc (hi.list c) s hs
    have hpos : 0 < x.size := lt_of_lt_of_le (by decide) (hi.serves c s x hs hx).roomy
    exact ⟨_, hp, hi.spanFor_eq hs hx hix (le_refl _) (Nat.lt_add_of_pos_right hpos)⟩
  · intro hb c l hc hl s hs
    obtain rfl := hl.linked.unique (hi.list c).linked
    obtain ⟨p, hp, hfor⟩ := hb c hc s hs
    obtain ⟨t, x, i, -, hx, hix, rfl, hfor'⟩ := hi.span_of_out hp
    obtain rfl := Option.some.inj (hfor.symm.trans hfor')
    exact ⟨x, i, hx, hix, hp⟩

/-- After `allocate` no list has a span without an object out that it did not have before. -/
theorem busy_allocate (hok : ∀ c, ClassOk (table c)) (hi : Inv table u) (hb : Busy table u)
    {k : Kernel} (hstep : (CentralCall.allocate k c).step u = some u') : Busy table u' := by
  obtain ⟨L, S, hi⟩ := hi
  obtain ⟨p, b', L', S', hres, hi', -, -, hroute, hnew, -, -⟩ := Backend.allocate_spec hi (hok c) k
  obtain rfl : ⟨b', Backend.gain u.out c p⟩ = u' := by
    simpa [CentralCall.step, hres] using hstep
  rw [busy_iff hi] at hb
  refine (busy_iff hi').mpr fun d hd t ht => ?_
  have hgain : ∀ q, q ∈ u.out d → q ∈ Backend.gain u.out c p d := by
    intro q hq
    by_cases hp : p = 0
    · rwa [Backend.gain, if_pos hp]
    · rw [Backend.gain, if_neg hp]
      by_cases hdc : d = c
      · subst hdc
        simp [hq]
      · simpa [hdc] using hq
  rcases hnew d t ht with ht | ⟨rfl, h0 | ⟨hp, hfor⟩⟩
  · obtain ⟨q, hq, hfor⟩ := hb d hd t ht
    exact ⟨q, hgain q hq, (hroute.route d q hq hq).trans hfor⟩
  · exact absurd h0 (Nat.pos_iff_ne_zero.mp hd)
  · exact ⟨p, by simp [Backend.gain, hp], hfor⟩

/-- **One call.**  From lists of spans that each have an object out, `deallocate` leads to such
lists exactly when the span, if this was its last object, was carved to its end. -/
theorem busy_deallocate (hi : Inv table u) (hb : Busy table u) {ptr : Nat} (hp : ptr ∈ u.out c)
    (hstep : (CentralCall.deallocate c ptr).step u = some u') :
    Busy table u' ↔ CarvedAtLast u (.deallocate c ptr) := by
  obtain ⟨L, S, hi⟩ := hi
  obtain ⟨s, x, b', L', S', hfor, hx, hs, hres, hi', -, hroute, hS, -⟩ :=
    Backend.deallocate_spec hi hp
  obtain rfl : ⟨b', Backend.lose u.out c ptr⟩ = u' := by
    simpa [CentralCall.step, hres] using hstep
  rw [busy_iff hi] at hb
  have hsx := hi.serves c s x hs hx
  have hpos : 0 < x.size := lt_of_lt_of_le (by decide) hsx.roomy
  have hlose : ∀ d q, q ∈ Backend.lose u.out c ptr d ↔ q ∈ u.out d ∧ (d = c → q ≠ ptr) := by
    intro d q
    by_cases hd : d = c
    · subst hd
      rw [Backend.lose, Function.update_self, (hi.nodup d).mem_erase_iff]
      tauto
    · simp [Backend.lose, hd]
  have hsub : ∀ d t, t ∈ S' d → t ∈ S d := by
    intro d t ht
    rw [hS] at ht
    split at ht
    · by_cases hd : d = c
      · subst hd
        rw [Function.update_self] at ht
        exact List.mem_of_mem_erase ht
      · rwa [Function.update_of_ne hd] at ht
    · exact ht
  -- a span that is still listed has an object out, unless it is `s`
  have hother : ∀ d, 0 < spanObjects (table d) → ∀ t ∈ S' d, t ≠ s →
      ∃ q ∈ Backend.lose u.out c ptr d, b'.pageHeap.spanFor q = some t := by
    intro d hd t ht hts
    obtain ⟨q, hq, hqt⟩ := hb d hd t (hsub d t ht)
    have hq' : q ∈ Backend.lose u.out c ptr d := by
      refine (hlose d q).mpr ⟨hq, fun _ e => hts ?_⟩
      exact Option.some.inj (hqt.symm.trans (e ▸ hfor))
    exact ⟨q, hq', (hroute.route d q hq hq').trans hqt⟩
  rw [busy_iff hi']
  by_cases hlast : ∀ i < x.totalObjects, x.addr i ∈ u.out c → x.addr i = ptr
  · -- the last object of `s`: the span stays on the list exactly when it is not full
    obtain ⟨s', x', j, -, hx', hjx, rfl, hfor'⟩ := hi.span_of_out hp
    obtain rfl := Option.some.inj (hfor.symm.trans hfor')
    obtain rfl := Option.some.inj (hx.symm.trans hx')
    obtain ⟨nodes, hex⟩ := hsx.exact
    have hone := hex.count_of_one (j := j) fun i =>
      ⟨fun h => hsx.addr_inj (hlast i h.1 h.2), fun e => e ▸ ⟨hjx, hp⟩⟩
    have hgone : ∀ q ∈ Backend.lose u.out c (x.addr j) c, b'.pageHeap.spanFor q ≠ some s := by
      intro q hq hqs
      obtain ⟨hq', hne⟩ := (hlose c q).mp hq
      rw [hroute.route c q hq' hq] at hqs
      obtain ⟨t, y, i, -, hy, hiy, rfl, hqt⟩ := hi.span_of_out hq'
      obtain rfl := Option.some.inj (hqs.symm.trans hqt)
      obtain rfl := Option.some.inj (hx.symm.trans hy)
      exact hne rfl (hlast i hiy hq')
    have hobj : 0 < spanObjects (table c) := by
      have := hsx.total
      rw [hsx.pages_eq, hsx.size_eq] at this
      rw [spanObjects, ← this]
      omega
    constructor
    · intro hbusy t y hft hy _
      obtain rfl := Option.some.inj (hfor.symm.trans hft)
      obtain rfl := Option.some.inj (hx.symm.trans hy)
      by_contra hne
      rw [if_neg (by rwa [hone])] at hS
      obtain ⟨q, hq, hqs⟩ := hbusy c hobj s (by rw [hS]; exact hs)
      exact hgone q hq hqs
    · intro hcarved d hd t ht
      refine hother d hd t ht ?_
      rintro rfl
      rw [hS, if_pos (hone.trans (hcarved t x hfor hx hlast))] at ht
      by_cases hdc : d = c
      · subst hdc
        rw [Function.update_self] at ht
        exact ((hi.list d).nodup.mem_erase_iff.mp ht).1 rfl
      · rw [Function.update_of_ne hdc] at ht
        exact hdc (hi.apart d c t ht hs)
  · -- another object of `s` is out
    refine iff_of_true (fun d hd t ht => ?_) fun t y hft hy h => ?_
    · by_cases hts : t = s
      · subst hts
        obtain rfl := hi.apart d c t (hsub d t ht) hs
        simp only [not_forall] at hlast
        obtain ⟨i, hix, hio, hne⟩ := hlast
        have hio' := (hlose d _).mpr ⟨hio, fun _ => hne⟩
        refine ⟨x.addr i, hio', (hroute.route d _ hio hio').trans ?_⟩
        exact hi.spanFor_eq hs hx hix (le_refl _) (Nat.lt_add_of_pos_right hpos)
      · exact hother d hd t ht hts
    · obtain rfl := Option.some.inj (hfor.symm.trans hft)
      obtain rfl := Option.some.inj (hx.symm.trans hy)
      exact absurd h hlast

theorem busy_step (hok : ∀ c, ClassOk (table c)) (hi : Inv table u) (hb : Busy table u)
    (ha : singles.allowed u a) (hstep : singles.step u a = some u') :
    Busy table u' ↔ CarvedAtLast u a := by
  cases a with
  | allocate k c => exact iff_of_true (busy_allocate hok hi hb hstep) trivial
  | deallocate c ptr => exact busy_deallocate hi hb ha.2 hstep
  | allocateBatch k c count => exact ha.1.elim
  | deallocateBatch c ptrs => exact ha.1.elim
  | write c ptr offset len v =>
      obtain rfl := Option.some.inj hstep
      exact iff_of_true hb trivial

/-- **Release.**  In a run of `allocate` and `deallocate` over the size classes, whatever the
clients write to their objects and the kernel answers, the lists hold only spans with an object
out exactly when each span is carved to its end by the time its last object comes back. -/
theorem busy_throughout_iff (r : singles.Run (init mem foreign sizeClass) as u) :
    singles.Throughout (Busy sizeClass) (init mem foreign sizeClass) as ↔
      singles.EachStep CarvedAtLast (init mem foreign sizeClass) as := by
  refine r.throughout_iff (I := Inv sizeClass)
    (fun hi ha h => step_inv sizeClass_classOk hi ha.2 h)
    (fun hi hb ha h => busy_step sizeClass_classOk hi hb ha h) inv_init ?_
  intro c l _ hl s hs
  obtain ⟨x, hx⟩ := hl.exist s hs
  cases hx

/-! ### Runs -/

/-- Classes of one page and of two: both spans are carved to their end when they come back empty. -/
def returnCalls : List CentralCall :=
  let k := PageHeap.kernelOf [16, 40]
  [.allocate k 27, .allocate k 20, .allocate k 20, .deallocate 20 166912, .deallocate 27 65536]

theorem busy_throughout_sample :
    singles.Throughout (Busy sizeClass) (init Memory.zero (fun _ => false) sizeClass) returnCalls ↔
      singles.EachStep CarvedAtLast (init Memory.zero (fun _ => false) sizeClass) returnCalls := by
  have h : (singles.replay (init Memory.zero (fun _ => false) sizeClass) returnCalls).isSome =
      true := by decide +kernel
  obtain ⟨u, hu⟩ := Option.isSome_iff_exists.mp h
  exact busy_throughout_iff (System.Run.of_replay hu)

/-- One object of 1152 bytes, handed out and given back. -/
def pinCalls : List CentralCall :=
  [.allocate (PageHeap.kernelOf [16]) 21, .deallocate 21 67840]

/-- The span stays on the list, with 3 of its 7 objects carved and none out. -/
theorem busy_fails :
    ∃ u, singles.Run (init Memory.zero (fun _ => false) sizeClass) pinCalls u ∧
      ¬ Busy sizeClass u := by
  have hrun : (singles.replay (init Memory.zero (fun _ => false) sizeClass) pinCalls).map
      (fun u => ((u.backend.freeList 21).spanList, u.backend.pageHeap.spans 0, u.out 21)) =
        some (some 0, some ⟨16, 2, none, none, 1152, 7, 3, 3, 0, false⟩, 0) := by
    decide +kernel
  obtain ⟨u, hu, he⟩ := Option.map_eq_some_iff.mp hrun
  simp only [Prod.mk.injEq] at he
  obtain ⟨hhead, hx, hout⟩ := he
  refine ⟨u, System.Run.of_replay hu, fun hb => ?_⟩
  have hl : SpanList u.backend.pageHeap.spans (u.backend.freeList 21).spanList [0] :=
    ⟨⟨hhead, prevOf_eq hx, nextOf_eq hx⟩, List.nodup_singleton 0, fun s hs => by
      obtain rfl := List.mem_singleton.mp hs
      exact ⟨_, hx⟩⟩
  obtain ⟨x, i, -, -, hp⟩ := hb 21 [0] (by decide) hl 0 (List.mem_singleton_self 0)
  rw [hout] at hp
  exact Multiset.notMem_zero _ hp

end Central

end TieredAllocator
