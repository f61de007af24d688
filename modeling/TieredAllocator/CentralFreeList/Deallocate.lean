import TieredAllocator.CentralFreeList.Allocate

/-!
# Central free list — deallocate and the batches

`deallocate` of an object that is out puts it back on the list of its span, and gives the span
back to the page heap when its counters say that all its objects are free
(`releaseToPageHeap_spec`, `deallocate_spec`).  The batch operations repeat the single ones.
-/

namespace TieredAllocator
open Lib

namespace Backend

variable {table : Nat → SizeClassInfo} {b b' : Backend} {out out' : Nat → Multiset Nat}
  {L L' S S' : Nat → List SpanId} {c d : Nat} {s t : SpanId} {x y : Span} {m' : Memory}
  {i j p n : Nat} {k : Kernel}

/-! ### deallocate -/

/-- The span without its list, as `release_to_page_heap` returns it. -/
def released (x : Span) : Span :=
  { x.data with
    freelistHead := invalidIndex
    numFreeObjects := 0
    totalObjects := 0
    nextUninitialized := 0 }

/-- A span whose objects are all free has none out. -/
theorem Inv.none_out (hi : Inv table b out L S) (hs : s ∈ S c) (hx : b.pageHeap.spans s = some x)
    (hfull : x.numFreeObjects = x.totalObjects) (i : Nat) : ¬ x.Out (out c) i := by
  intro hO
  obtain ⟨nodes, hex⟩ := (hi.serves c s x hs hx).exact
  have := hex.count_lt_iff.mpr ⟨i, hO⟩
  have := hex.carved
  omega

/-- Off its list and without objects, the span is one in use for the page heap as before. -/
theorem Inv.released_heap (hi : Inv table b out L S) (hs : s ∈ S c)
    (hx : b.pageHeap.spans s = some x) {spans' : SpanId → Option Span}
    (hsame : SameData b.pageHeap.spans spans')
    (hoff : ∀ t, t ∉ S c → spans' t = b.pageHeap.spans t) :
    PageHeap.Inv PageHeap.Rest
      (({ b.pageHeap with spans := spans' } : PageHeap).set s (released x)) L := by
  refine hi.heap.retouch (fun t w hw hf => ?_) fun t => ?_
  · have htn : t ∉ S c := fun ht => by
      have := (hi.serves c t w ht hw).used
      rw [this] at hf
      cases hf
    have hts : t ≠ s := fun e => htn (e ▸ hs)
    rw [Function.update_of_ne hts]
    exact (hoff t htn).trans hw
  · by_cases hts : t = s
    · subst hts
      rw [Function.update_self, hx]
      rfl
    · rw [Function.update_of_ne hts]
      exact Span.map_of_data (fun _ => rfl) (hsame t)

/-- **A span whose objects are all free** goes back to the page heap. -/
theorem releaseToPageHeap_spec (hi : Inv table b out L S) (hs : s ∈ S c)
    (hx : b.pageHeap.spans s = some x) (hfull : x.numFreeObjects = x.totalObjects) :
    ∃ b' L', b.releaseToPageHeap c s = some b' ∧
      Inv table b' out L' (Function.update S c ((S c).erase s)) ∧ b'.mem = b.mem ∧
      Steady b b' out out ∧ Apart b b' S c := by
  have hsx := hi.serves c s x hs hx
  obtain ⟨nodes, hex⟩ := hsx.exact
  obtain ⟨spans', head', hun, hlist', hsame, hoff, hclear⟩ := unlink_spec (hi.list c) hs
  have hsx' := hclear x hx
  let h₁ := ({ b.pageHeap with spans := spans' } : PageHeap).set s (released x)
  have hself₁ : h₁.spans s = some (released x) := by simp [h₁, PageHeap.set]
  have hne₁ : ∀ t, t ≠ s → h₁.spans t = spans' t := fun t ht => by simp [h₁, PageHeap.set, ht]
  have hi₁ : PageHeap.Inv PageHeap.Rest h₁ L := hi.released_heap hs hx hsame hoff
  obtain ⟨h₂, L', hret, hi₂, hk, hfree, hos, -⟩ := PageHeap.returnSpan_spec hi₁ hself₁ hsx.used
  let l' : CentralFreeList := { b.freeList c with
    spanList := head'
    currentSpan := if (b.freeList c).currentSpan = some s then none else (b.freeList c).currentSpan
    numFree := sub32 (b.freeList c).numFree x.numFreeObjects }
  let b' := ({ b with pageHeap := h₂ }).setList c l'
  have hres : b.releaseToPageHeap c s = some b' := by
    simp only [releaseToPageHeap, hx, Option.bind_eq_bind, Option.bind_some, hun, hsx']
    simp only [h₁, released] at hret
    rw [hret]
    rfl
  -- the other spans in use are those before, up to links
  have hunlinked : ∀ {d t}, t ∈ S d → t ≠ s → h₂.spans t = spans' t := by
    intro d t ht hts
    obtain ⟨y, hy, hsy⟩ := hi.used ht
    obtain ⟨z, hz, hzy⟩ := hsame.some hy
    have hzf : z.isFree = false := (Span.data_inj hzy).2.2.2.trans hsy.used
    exact ((hk t z hts hzf).mpr ((hne₁ t hts).trans hz)).trans hz.symm
  have hkept : ∀ {d t}, t ∈ S d → t ≠ s →
      (h₂.spans t).map Span.data = (b.pageHeap.spans t).map Span.data := by
    intro d t ht hts
    rw [hunlinked ht hts]
    exact hsame t
  have hS : ∀ d t, t ∈ Function.update S c ((S c).erase s) d ↔ t ∈ S d ∧ t ≠ s := by
    intro d t
    by_cases hd : d = c
    · subst hd
      rw [Function.update_self, (hi.list d).nodup.mem_erase_iff]
      exact and_comm
    · rw [Function.update_of_ne hd]
      exact ⟨fun ht => ⟨ht, fun e => hd (hi.apart d c t ht (e ▸ hs))⟩, fun h => h.1⟩
  have hother : ∀ d t, d ≠ c → t ∈ S d → h₂.spans t = b.pageHeap.spans t := by
    intro d t hd ht
    rw [hunlinked ht fun e => hd (hi.apart d c t ht (e ▸ hs)),
      hoff t fun ht' => hd (hi.apart d c t ht ht')]
  -- what is out lies in spans that stay
  have hstays : ∀ {d t y i}, t ∈ S d → b.pageHeap.spans t = some y → i < y.totalObjects →
      y.addr i ∈ out d → t ≠ s := by
    rintro d t y i ht hy hiy hp rfl
    obtain rfl := Option.some.inj (hx.symm.trans hy)
    obtain rfl := hi.apart d c t ht hs
    exact hi.none_out ht hx hfull i ⟨hiy, hp⟩
  have hlists : ∀ d, (b'.freeList d).spanList =
        (if d = c then head' else (b.freeList d).spanList) ∧
      (b'.freeList d).size = (b.freeList d).size ∧
        (b'.freeList d).pages = (b.freeList d).pages := by
    intro d
    by_cases hd : d = c
    · subst hd; simp [b', l', setList]
    · simp [b', setList, hd]
  refine ⟨b', L', hres, hi.relist rfl hi₂ (fun d => (hlists d).2) (fun d => ?_) (fun d t ht => ?_)
    (fun d t y ht hy => ?_) (fun d e t ht ht' => ?_) (fun t y hy hyf => ?_)
    (fun d t y i ht hy hiy hout => ?_) fun d => ?_, rfl, ⟨fun d p hp _ => ?_, .inl hos⟩,
    fun d hd => ?_, hother⟩
  · rw [(hlists d).1]
    by_cases hd : d = c
    · subst hd
      rw [if_pos rfl, Function.update_self]
      refine hlist'.congr fun t ht => ?_
      obtain ⟨hts, htc⟩ := (hi.list d).nodup.mem_erase_iff.mp ht
      exact hunlinked htc hts
    · rw [if_neg hd, Function.update_of_ne hd]
      exact (hi.list d).congr fun t ht => hother d t hd ht
  · by_cases hd : d = c
    · subst hd
      have ht' : (if (b.freeList d).currentSpan = some s then none
          else (b.freeList d).currentSpan) = some t := by
        simpa [b', l', setList] using ht
      by_cases hc : (b.freeList d).currentSpan = some s
      · rw [if_pos hc] at ht'
        cases ht'
      · rw [if_neg hc] at ht'
        exact (hS d t).mpr ⟨hi.current d t ht', fun e => hc (e ▸ ht')⟩
    · have ht' : (b.freeList d).currentSpan = some t := by simpa [b', setList, hd] using ht
      have htd := hi.current d t ht'
      exact (hS d t).mpr ⟨htd, fun e => hd (hi.apart d c t htd (e ▸ hs))⟩
  · obtain ⟨htd, hts⟩ := (hS d t).mp ht
    obtain ⟨w, hw, hwy⟩ := Span.some_of_data (hkept htd hts).symm hy
    exact .inl ⟨htd, w, hw, hwy.symm⟩
  · exact hi.apart d e t ((hS d t).mp ht).1 ((hS e t).mp ht').1
  · have hts : t ≠ s := by
      rintro rfl
      rw [hfree y hy] at hyf
      cases hyf
    have hy₁ := (hk t y hts hyf).mp hy
    rw [hne₁ t hts] at hy₁
    obtain ⟨w, hw, hwy⟩ := hsame.symm.some hy₁
    obtain ⟨d, ht⟩ := hi.complete t w hw ((Span.data_inj hwy).2.2.2.trans hyf)
    exact ⟨d, (hS d t).mpr ⟨ht, hts⟩⟩
  · have hts := hstays ht hy hiy hout
    exact ⟨(hS d t).mpr ⟨ht, hts⟩, Span.some_of_data (hkept ht hts) hy⟩
  · show (b'.freeList d).numFree = freeCount h₂.spans _ % 2 ^ 32
    rw [freeCount_of_data fun t ht => hkept ((hS d t).mp ht).1 ((hS d t).mp ht).2]
    by_cases hd : d = c
    · subst hd
      have hsmall := hex.count_lt
      have hcnt := hi.counted d
      rw [freeCount_mem hs hx, ← Nat.zero_add x.numFreeObjects] at hcnt
      rw [Function.update_self]
      show (Function.update b.freeList d l' d).numFree = _
      rw [Function.update_self]
      show sub32 (b.freeList d).numFree x.numFreeObjects = _
      rw [hcnt, sub32_mod _ _ _ (by simp only [invalidIndex] at hsmall; omega), Nat.add_zero]
    · rw [Function.update_of_ne hd, ← hi.counted d]
      simp [b', setList, hd]
  · obtain ⟨t, y, i, ht, hy, hiy, rfl⟩ := hi.handed d p hp
    exact hi.spanFor_kept hi₂ ht hy (hkept ht (hstays ht hy hiy hp)) hiy
  · simp [b', setList, hd]

/-- `p` leaves what is out in class `c`. -/
def lose (out : Nat → Multiset Nat) (c p : Nat) : Nat → Multiset Nat :=
  Function.update out c ((out c).erase p)

/-- The span of an object that is out. -/
theorem Inv.span_of_out (hi : Inv table b out L S) (hp : p ∈ out c) :
    ∃ s x i, s ∈ S c ∧ b.pageHeap.spans s = some x ∧ i < x.totalObjects ∧ p = x.addr i ∧
      b.pageHeap.spanFor p = some s := by
  obtain ⟨s, x, i, hs, hx, hix, rfl⟩ := hi.handed c p hp
  have hpos : 0 < x.size := lt_of_lt_of_le (by decide) (hi.serves c s x hs hx).roomy
  exact ⟨s, x, i, hs, hx, hix, rfl,
    hi.spanFor_eq hs hx hix (le_refl _) (Nat.lt_add_of_pos_right hpos)⟩

/-- **The locked part of `deallocate`**, for an object that is out and its span: the object is
free, and the span is released exactly when its counters now agree. -/
theorem deallocateLocked_spec (hi : Inv table b out L S) (hp : p ∈ out c)
    (hs : b.pageHeap.spanFor p = some s) :
    ∃ x b' L' S', b.pageHeap.spans s = some x ∧ s ∈ S c ∧ b.deallocateLocked c s p = some b' ∧
      Inv table b' (lose out c p) L' S' ∧
      Memory.Wrote (FreeObject b S ((out c).erase p) c) b.mem b'.mem ∧
      Steady b b' out (lose out c p) ∧
      (S' = if x.numFreeObjects + 1 = x.totalObjects then Function.update S c ((S c).erase s)
        else S) ∧ Apart b b' S c := by
  obtain ⟨s', x, j, hs', hx, hjx, rfl, hfor⟩ := hi.span_of_out hp
  obtain rfl := Option.some.inj (hs.symm.trans hfor)
  have hsx := hi.serves c s x hs' hx
  have hz : (b.freeList c).size = x.size := (hi.config c).1.trans hsx.size_eq.symm
  have hz0 : (b.freeList c).size ≠ 0 := by
    have := hsx.roomy
    omega
  obtain ⟨nodes, hex⟩ := hsx.exact
  obtain ⟨m', y, nodes', hgive, hex', hw, hy, hcnt, -⟩ := give_spec hex hsx.roomy ⟨hjx, hp⟩
  rw [hsx.out_erase (hi.nodup c) j] at hex' hw
  have hlose : lose out c (x.addr j) c = (out c).erase (x.addr j) := by simp [lose]
  have hi₁ : Inv table (served b c s m' y (add32 (b.freeList c).numFree 1))
      (lose out c (x.addr j)) L S := by
    refine hi.edit hs' hx hy (hlose ▸ hex') hw (fun d q hq => ?_) (fun d => ?_) rfl rfl rfl
      (hi.current c) fun k hk => by rw [hcnt, hk, add32_mod]
    · by_cases hd : d = c
      · subst hd
        rw [hlose, (hi.nodup d).mem_erase_iff]
        exact and_iff_right (hq rfl j hjx)
      · rw [lose, Function.update_of_ne hd]
    · by_cases hd : d = c
      · subst hd
        rw [hlose]
        exact (hi.nodup d).erase _
      · rw [lose, Function.update_of_ne hd]
        exact hi.nodup d
  have hwrote : Memory.Wrote (FreeObject b S ((out c).erase (x.addr j)) c) b.mem m' :=
    hw.mono fun a l hf => ⟨s, x, hs', hx, hf⟩
  have htot : y.totalObjects = x.totalObjects := hy.fields.2.2.2.1
  have hstep : b.deallocateLocked c s (x.addr j) =
      if y.numFreeObjects = y.totalObjects then
        (served b c s m' y (add32 (b.freeList c).numFree 1)).releaseToPageHeap c s
      else some (served b c s m' y (add32 (b.freeList c).numFree 1)) := by
    simp only [deallocateLocked, if_neg hz0, hx, Option.bind_eq_bind, Option.bind_some]
    rw [← hz] at hgive
    rw [hgive]
    rfl
  have hserved : Apart b (served b c s m' y (add32 (b.freeList c).numFree 1)) S c :=
    ⟨fun d hd => by simp [served, setSpan, setList, hd], fun d t hd ht =>
      served_spans_of_ne fun e => hd (hi.apart d c t ht (e ▸ hs'))⟩
  by_cases hfull : y.numFreeObjects = y.totalObjects
  · obtain ⟨b', L', hrel, hi', hmem, hroute, hapart⟩ :=
      releaseToPageHeap_spec hi₁ hs' served_spans hfull
    refine ⟨x, b', L', _, hx, hs', by rw [hstep, if_pos hfull, hrel], hi', ?_,
      ⟨fun d q _ hq => hroute.route d q hq hq, hroute.os⟩,
      (if_pos (by rw [← hcnt, hfull, htot])).symm, hserved.trans hapart⟩
    rw [hmem]
    exact hwrote
  · exact ⟨x, _, L, S, hx, hs', by rw [hstep, if_neg hfull], hi₁, hwrote,
      ⟨fun _ _ _ _ => rfl, .inl rfl⟩, (if_neg (by rw [← hcnt, ← htot]; exact hfull)).symm,
      hserved⟩

/-- **`deallocate`** of an object that is out. -/
theorem deallocate_spec (hi : Inv table b out L S) (hp : p ∈ out c) :
    ∃ s x b' L' S', b.pageHeap.spanFor p = some s ∧ b.pageHeap.spans s = some x ∧ s ∈ S c ∧
      b.deallocate c p = some b' ∧ Inv table b' (lose out c p) L' S' ∧
      Memory.Wrote (FreeObject b S ((out c).erase p) c) b.mem b'.mem ∧
      Steady b b' out (lose out c p) ∧
      (S' = if x.numFreeObjects + 1 = x.totalObjects then Function.update S c ((S c).erase s)
        else S) ∧ Apart b b' S c := by
  obtain ⟨s, -, -, -, -, -, -, hfor⟩ := hi.span_of_out hp
  obtain ⟨x, b', L', S', hx, hs, hres, hrest⟩ := deallocateLocked_spec hi hp hfor
  refine ⟨s, x, b', L', S', hfor, hx, hs, ?_, hrest⟩
  rw [deallocate, if_neg (hi.ne_zero hp), hfor]
  exact hres

/-! ### The batches -/

/-- The objects `ps` join what is out in class `c`. -/
def gainAll (out : Nat → Multiset Nat) (c : Nat) (ps : Multiset Nat) : Nat → Multiset Nat :=
  Function.update out c (ps + out c)

/-- The objects `ps` leave what is out in class `c`. -/
def loseAll (out : Nat → Multiset Nat) (c : Nat) (ps : Multiset Nat) : Nat → Multiset Nat :=
  Function.update out c (out c - ps)

@[simp] theorem gainAll_zero : gainAll out c 0 = out := by simp [gainAll]

@[simp] theorem loseAll_zero : loseAll out c 0 = out := by simp [loseAll]

theorem gainAll_gain (hp : p ≠ 0) (ps : Multiset Nat) :
    gainAll (gain out c p) c ps = gainAll out c (p ::ₘ ps) := by
  simp [gainAll, gain, hp]

theorem loseAll_lose (out : Nat → Multiset Nat) (c p : Nat) (ps : Multiset Nat) :
    loseAll (lose out c p) c ps = loseAll out c (p ::ₘ ps) := by
  simp [loseAll, lose, Multiset.sub_cons]

/-- **`allocate_batch`** hands out as many objects as it returns, `count` at most. -/
theorem allocateBatch_spec (hok : ClassOk (table c)) (k : Kernel) (count : Nat)
    (hi : Inv table b out L S) :
    ∃ ps b' L' S', allocateBatch k c count b = some (ps, b') ∧
      Inv table b' (gainAll out c ps) L' S' ∧ ps.length ≤ count := by
  induction count generalizing b out L S with
  | zero => exact ⟨[], b, L, S, rfl, by simpa using hi, le_refl _⟩
  | succ count ih =>
      obtain ⟨p, b₁, L₁, S₁, hres, hi₁, -⟩ := allocate_spec hi hok k
      by_cases hp : p = 0
      · subst hp
        refine ⟨[], b₁, L₁, S₁, ?_, by simpa [gain] using hi₁, Nat.zero_le _⟩
        simp [allocateBatch, hres]
      · obtain ⟨ps, b', L', S', hrest, hi', hlen⟩ := ih hi₁
        refine ⟨p :: ps, b', L', S', ?_, ?_, by simpa using hlen⟩
        · simp [allocateBatch, hres, hp, hrest]
        · rw [← Multiset.cons_coe, ← gainAll_gain hp]
          exact hi'

/-- **`deallocate_batch`** of objects that are out. -/
theorem deallocateBatch_spec (ps : List Nat) (hi : Inv table b out L S)
    (hps : (ps : Multiset Nat) ≤ out c) :
    ∃ b' L' S', deallocateBatch c ps b = some b' ∧ Inv table b' (loseAll out c ps) L' S' := by
  induction ps generalizing b out L S with
  | nil => exact ⟨b, L, S, rfl, by simpa using hi⟩
  | cons p ps ih =>
      rw [← Multiset.cons_coe] at hps
      have hp : p ∈ out c := Multiset.mem_of_le hps (Multiset.mem_cons_self p _)
      obtain ⟨-, -, b₁, L₁, S₁, -, -, -, hres, hi₁, -⟩ := deallocate_spec hi hp
      obtain ⟨b', L', S', hrest, hi'⟩ := ih hi₁ (by
        have := Multiset.erase_le_erase p hps
        rwa [Multiset.erase_cons_head, ← show lose out c p c = (out c).erase p by simp [lose]]
          at this)
      refine ⟨b', L', S', by simp [deallocateBatch, hres, hrest], ?_⟩
      rw [← Multiset.cons_coe, ← loseAll_lose]
      exact hi'

end Backend

end TieredAllocator
