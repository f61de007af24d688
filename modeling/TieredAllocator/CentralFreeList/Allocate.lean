import TieredAllocator.CentralFreeList.Invariant

/-!
# Central free list — allocate

One specification for each step of `allocate`: the walk over the spans of the class
(`findAvailable_spec`), the span taken from the page heap (`fetchFromPageHeap_spec`), the choice
between the two (`chooseSpan_spec`) and the object taken from the chosen span (`takeFrom_spec`).
`allocate_spec` puts them together: whatever the kernel answers, the call is defined, and it
returns an object that was not out or null.
-/

namespace TieredAllocator
open Lib

variable {table : Nat → SizeClassInfo} {b b' : Backend} {out out' : Nat → Multiset Nat}
  {L L' S S' : Nat → List SpanId} {c d : Nat} {s t : SpanId} {x y : Span} {m' : Memory}
  {i j p n : Nat} {k : Kernel}

/-- The classes a central free list can serve: objects hold a packed node, and 16 bits name the
objects of a span.  A class without size or pages never has a span. -/
def ClassOk (info : SizeClassInfo) : Prop :=
  info.size = 0 ∨ info.pages = 0 ∨
    (8 ≤ info.size ∧ info.pages * pageSize / info.size ≤ invalidIndex)

theorem sizeClass_classOk (c : Nat) : ClassOk (sizeClass c) := by
  by_cases hc : c < numSizeClasses
  · have h : ∀ c < numSizeClasses, (sizeClass c).size = 0 ∨ (sizeClass c).pages = 0 ∨
        (8 ≤ (sizeClass c).size ∧
          (sizeClass c).pages * pageSize / (sizeClass c).size ≤ invalidIndex) := by
      decide +kernel
    exact h c hc
  · left
    rw [sizeClass, List.getD_eq_getElem?_getD, List.getElem?_eq_none (not_lt.mp hc)]
    rfl

/-! ### The walk -/

theorem findAvailable_spec {spans : SpanId → Option Span} {q head : Option SpanId}
    {l : List SpanId} {fuel : Nat} (hl : Linked (nextOf spans) (prevOf spans) q head l)
    (hex : ∀ t ∈ l, ∃ x, spans t = some x) (hf : l.length < fuel) :
    ∃ r, Backend.findAvailable spans fuel head = some r ∧
      (r = none → ∀ t ∈ l, ∀ x, spans t = some x → x.hasAvailableObjects = false) ∧
      (∀ s, r = some s → s ∈ l ∧ ∃ x, spans s = some x ∧ x.hasAvailableObjects = true) := by
  induction l generalizing q head fuel with
  | nil =>
      obtain ⟨f, rfl⟩ : ∃ f, fuel = f + 1 := ⟨fuel - 1, by simp at hf; omega⟩
      obtain rfl := hl
      exact ⟨none, rfl, by simp, by simp⟩
  | cons c cs ih =>
      obtain ⟨f, rfl⟩ : ∃ f, fuel = f + 1 := ⟨fuel - 1, by simp at hf; omega⟩
      obtain ⟨rfl, -, hcs⟩ := hl
      obtain ⟨y, hy⟩ := hex c (by simp)
      rw [nextOf_eq hy] at hcs
      cases ha : y.hasAvailableObjects with
      | true => exact ⟨some c, by simp [Backend.findAvailable, hy, ha], by simp,
          fun s hs => by obtain rfl := Option.some.inj hs; exact ⟨by simp, y, hy, ha⟩⟩
      | false =>
          obtain ⟨r, hr, hnone, hsome⟩ := ih hcs (fun t ht => hex t (by simp [ht]))
            (show cs.length < f by simpa using hf)
          refine ⟨r, by simp [Backend.findAvailable, hy, ha, hr], fun h t ht x hx => ?_,
            fun s hs => ?_⟩
          · rcases List.mem_cons.mp ht with rfl | ht
            · obtain rfl := Option.some.inj (hy.symm.trans hx)
              exact ha
            · exact hnone h t ht x hx
          · obtain ⟨h₁, h₂⟩ := hsome s hs
            exact ⟨by simp [h₁], h₂⟩

namespace PageHeap

variable {h h' : PageHeap} {z : Nat}

/-- The span `allocate_span` returns is in use, as asked for, and was not in use before. -/
theorem Allocated.some {F : Nat → List SpanId} (hi : Inv Rest h F)
    (ha : Allocated k h n z (some s) h') :
    ∃ w, h'.spans s = some w ∧ w.isFree = false ∧ w.numPages = n ∧ w.size = z ∧
      Keeps h h' s ∧ ∀ x, h.spans s = some x → x.isFree = true := by
  cases ha with
  | reused _ _ hx hf _ hw hk _ _ =>
      exact ⟨_, hw, rfl, rfl, rfl, hk, fun y hy => Option.some.inj (hx.symm.trans hy) ▸ hf⟩
  | mapped _ _ hw hk _ _ =>
      exact ⟨_, hw, rfl, rfl, rfl, hk, fun y hy => absurd (hi.ids _ y hy) (lt_irrefl _)⟩

/-- The kernel was asked for memory once at most. -/
theorem Allocated.os_eq {r : Option SpanId} (ha : Allocated k h n z r h') :
    h'.os = h.os ∨ ∃ k n, h'.os = (h.os.mmap k n).2 := by
  cases ha with
  | rejected _ => exact .inl rfl
  | reused _ _ _ _ _ _ _ hos _ => exact .inl hos
  | mapped _ _ _ _ hos _ => exact .inr ⟨k, n, hos⟩
  | failed _ _ h => exact .inr ⟨k, n, by rw [h]⟩

/-- `allocate_span` has returned `r`, and this is what it did. -/
def Gives (k : Kernel) (h : PageHeap) (n z : Nat) (r : Option SpanId) (h' : PageHeap) : Prop :=
  h.allocateSpan k n z = some (r, h') ∧ Allocated k h n z r h'

/-- Without a span, at most the system calls changed. -/
theorem Allocated.none (ha : Allocated k h n z none h') :
    h'.spans = h.spans ∧ h'.nextId = h.nextId ∧ h'.freeLists = h.freeLists ∧
      h'.pageMap = h.pageMap := by
  cases ha with
  | rejected _ => exact ⟨rfl, rfl, rfl, rfl⟩
  | failed _ _ h => rw [h]; exact ⟨rfl, rfl, rfl, rfl⟩

end PageHeap

namespace Backend

theorem Inv.length_lt (hi : Inv table b out L S) : (S c).length < b.pageHeap.walkFuel := by
  refine Nat.lt_succ_of_le (length_le_of_nodup_lt (hi.list c).nodup fun t ht => ?_)
  obtain ⟨x, hx⟩ := (hi.list c).exist t ht
  exact hi.heap.ids t x hx

theorem Inv.findAvailableSpan (hi : Inv table b out L S) (c : Nat) :
    ∃ r, b.findAvailableSpan c = some r ∧
      (r = none → ∀ t ∈ S c, ∀ x, b.pageHeap.spans t = some x → x.hasAvailableObjects = false) ∧
      (∀ s, r = some s → s ∈ S c ∧
        ∃ x, b.pageHeap.spans s = some x ∧ x.hasAvailableObjects = true) :=
  findAvailable_spec (hi.list c).linked (hi.list c).exist hi.length_lt

/-! ### Taking an object from a span -/

/-- `b` after a step inside span `s` of class `c`. -/
def served (b : Backend) (c : Nat) (s : SpanId) (m' : Memory) (y : Span) (n : Nat) : Backend :=
  ({ b with mem := m' }.setSpan s y).setList c { b.freeList c with numFree := n }

theorem served_served (b : Backend) (c : Nat) (s : SpanId) (m₁ m₂ : Memory) (y z : Span)
    (n₁ n₂ : Nat) : served (served b c s m₁ y n₁) c s m₂ z n₂ = served b c s m₂ z n₂ := by
  simp [served, setSpan, setList, PageHeap.set]

@[simp] theorem served_spans : (served b c s m' y n).pageHeap.spans s = some y := by
  simp [served, setSpan, setList, PageHeap.set]

theorem served_spans_of_ne (h : t ≠ s) :
    (served b c s m' y n).pageHeap.spans t = b.pageHeap.spans t := by
  simp [served, setSpan, setList, PageHeap.set, h]

@[simp] theorem served_freeList :
    (served b c s m' y n).freeList c = { b.freeList c with numFree := n } := by
  simp [served, setSpan, setList]

theorem populateSpan_eq (hx : b.pageHeap.spans s = some x) {freed : Nat}
    (hp : populate b.mem (b.freeList c).size x = (m', y, freed)) :
    b.populateSpan c s = some (served b c s m' y (add32 (b.freeList c).numFree freed)) := by
  simp only [populateSpan, hx, Option.bind_eq_bind, Option.bind_some, hp]
  rfl

/-- On a span whose list is not empty, `take` is all there is to do. -/
theorem takeFrom_head (hx : b.pageHeap.spans s = some x) (hh : x.freelistHead ≠ invalidIndex)
    (ht : take b.mem (b.freeList c).size x = (p, m', y)) :
    b.takeFrom c s = some (p, served b c s m' y (sub32 (b.freeList c).numFree 1)) := by
  simp only [takeFrom, hx, Option.bind_eq_bind, Option.bind_some, if_neg hh, ht]
  rfl

/-- On a span whose list is empty, `populate_span` comes first. -/
theorem takeFrom_empty (hx : b.pageHeap.spans s = some x) (hh : x.freelistHead = invalidIndex)
    {b₁ : Backend} (hp : b.populateSpan c s = some b₁) (hy : b₁.pageHeap.spans s = some y) :
    b.takeFrom c s =
      if y.freelistHead = invalidIndex then some (0, b₁) else b₁.takeFrom c s := by
  by_cases hyh : y.freelistHead = invalidIndex
  · simp only [takeFrom, hx, Option.bind_eq_bind, Option.bind_some, if_pos hh, hp, hy, if_pos hyh]
  · simp only [takeFrom, hx, Option.bind_eq_bind, Option.bind_some, if_pos hh, hp, hy, if_neg hyh]

/-- **Taking an object** from a span that has one. -/
theorem takeFrom_spec (hi : Inv table b out L S) (hs : s ∈ S c)
    (hx : b.pageHeap.spans s = some x) (ha : x.hasAvailableObjects = true) :
    ∃ j m' y n, b.takeFrom c s = some (x.addr j, served b c s m' y n) ∧ j < x.totalObjects ∧
      x.addr j ∉ out c ∧ x.Restocked y ∧
      Memory.Wrote (FreeSlot x (x.Out (out c))) b.mem m' ∧
      Inv table (served b c s m' y n) (Function.update out c (x.addr j ::ₘ out c)) L S := by
  have hsx := hi.serves c s x hs hx
  have hz : (b.freeList c).size = x.size := (hi.config c).1.trans hsx.size_eq.symm
  obtain ⟨nodes, hex⟩ := hsx.exact
  -- the span after `populate_span`, if it is called
  obtain ⟨m₁, y₁, nodes₁, n₁, hres₁, hex₁, hw₁, hy₁, hhead, hn₁⟩ : ∃ m₁ y₁ nodes₁ n₁,
      b.takeFrom c s = (served b c s m₁ y₁ n₁).takeFrom c s ∧
      PackedExact m₁ y₁ nodes₁ (x.Out (out c)) ∧
      Memory.Wrote (FreeSlot x (x.Out (out c))) b.mem m₁ ∧ x.Restocked y₁ ∧
      y₁.freelistHead ≠ invalidIndex ∧
      (∀ k, (b.freeList c).numFree = (k + x.numFreeObjects) % 2 ^ 32 →
        n₁ = (k + y₁.numFreeObjects) % 2 ^ 32) := by
    by_cases hh : x.freelistHead = invalidIndex
    · obtain ⟨m₁, y₁, nodes₁, freed, hres, hex₁, hw₁, hy₁, hcnt, hmore, -⟩ :=
        populate_spec hex hsx.roomy
      have hlt : x.nextUninitialized < x.totalObjects := by
        simpa [Span.hasAvailableObjects, hh] using ha
      have hhead := (hmore hlt).1
      refine ⟨m₁, y₁, nodes₁, add32 (b.freeList c).numFree freed, ?_, hex₁, hw₁, hy₁, hhead,
        fun k hk => by rw [hcnt, hk, add32_mod]⟩
      rw [takeFrom_empty hx hh (populateSpan_eq hx (hz ▸ hres)) served_spans, if_neg hhead]
    · refine ⟨b.mem, x, nodes, (b.freeList c).numFree, ?_, hex, Memory.Wrote.refl _ _, rfl, hh,
        fun k hk => hk⟩
      congr 1
      have : Function.update b.pageHeap.spans s (some x) = b.pageHeap.spans := by
        rw [← hx, Function.update_eq_self]
      simp [served, setSpan, setList, PageHeap.set, this]
  have hz₁ : y₁.size = x.size := hy₁.fields.2.2.1
  obtain ⟨j, m', y, nodes', htake, hjn, hj, hex', hw, hy, hcnt, -⟩ :=
    take_spec hex₁ (hz₁ ▸ hsx.roomy) hhead
  have hjt : j < x.totalObjects := by
    rw [← hy₁.fields.2.2.2.1]
    exact lt_of_lt_of_le hjn hex₁.carved
  have hjo : x.addr j ∉ out c := fun h => hj ⟨hjt, h⟩
  have hxy := hy₁.trans hy
  have hwrote : Memory.Wrote (FreeSlot x (x.Out (out c))) b.mem m' := by
    refine hw₁.trans (hw.mono fun a k h => hy₁.freeSlot.mp ?_)
    obtain ⟨i, h₁, h₂, h₃⟩ := h
    exact ⟨i, h₁, fun hO => h₂ (.inl hO), h₃⟩
  have htake' : take (served b c s m₁ y₁ n₁).mem ((served b c s m₁ y₁ n₁).freeList c).size y₁ =
      (x.addr j, m', y) := by
    rw [served_freeList, hz, ← hz₁, ← hy₁.addr_eq]
    exact htake
  have hex'' : PackedExact m' y nodes'
      (x.Out (Function.update out c (x.addr j ::ₘ out c) c)) := by
    rw [Function.update_self, ← hsx.out_cons hjt]
    exact hex'
  refine ⟨j, m', y, sub32 n₁ 1, ?_, hjt, hjo, hxy, hwrote, ?_⟩
  · rw [hres₁, takeFrom_head served_spans hhead htake', served_freeList, served_served]
  · refine hi.edit hs hx hxy hex'' hwrote (fun d q hq => ?_) (fun d => ?_) rfl rfl
      rfl (hi.current c) fun k hk => ?_
    · by_cases hd : d = c
      · subst hd
        rw [Function.update_self, Multiset.mem_cons]
        exact or_iff_right (hq rfl j hjt)
      · rw [Function.update_of_ne hd]
    · by_cases hd : d = c
      · subst hd
        rw [Function.update_self]
        exact Multiset.nodup_cons.mpr ⟨hjo, hi.nodup d⟩
      · rw [Function.update_of_ne hd]
        exact hi.nodup d
    · rw [hn₁ k hk, ← hcnt, sub32_mod _ _ _ (by decide)]

/-! ### A span from the page heap -/

/-- A span with no object carved. -/
def fetched (w : Span) (head : Option SpanId) : Span :=
  { w with
    next := head
    prev := none
    totalObjects := w.numPages * pageSize / w.size
    freelistHead := invalidIndex
    numFreeObjects := 0
    nextUninitialized := 0 }

/-- `b` where `current_span` of the class is `s`. -/
def cached (b : Backend) (c : Nat) (s : Option SpanId) : Backend :=
  b.setList c { b.freeList c with currentSpan := s }

theorem cached_self (h : (b.freeList c).currentSpan = some s) : b.cached c (some s) = b := by
  have : { b.freeList c with currentSpan := some s } = b.freeList c := by rw [← h]
  rw [cached, setList, this, Function.update_eq_self]

/-- `b` after the page heap has become `h'` and has given `s`, which goes in front of the list. -/
def linked (b : Backend) (c : Nat) (s : SpanId) (h' : PageHeap) (w : Span) : Backend :=
  ({ b with
    pageHeap := { h' with
      spans := pushed h'.spans (b.freeList c).spanList s
        (fetched w (b.freeList c).spanList) } }).setList c
    { b.freeList c with spanList := some s, currentSpan := some s }

theorem linked_cached {h' : PageHeap} {w : Span} {r : Option SpanId} :
    (b.cached c r).linked c s h' w = b.linked c s h' w := by
  simp [linked, cached, setList]

theorem fetchFromPageHeap_none (hz : (b.freeList c).size ≠ 0) (hp : (b.freeList c).pages ≠ 0)
    {h' : PageHeap} (ha : b.pageHeap.allocateSpan k (b.freeList c).pages (b.freeList c).size =
      some (none, h')) :
    b.fetchFromPageHeap k c = some { b with pageHeap := h' } := by
  simp only [fetchFromPageHeap, if_neg (not_or.mpr ⟨hz, hp⟩), ha, Option.bind_eq_bind,
    Option.bind_some]

theorem fetchFromPageHeap_some (hz : (b.freeList c).size ≠ 0) (hp : (b.freeList c).pages ≠ 0)
    {h' : PageHeap} {w : Span}
    (ha : b.pageHeap.allocateSpan k (b.freeList c).pages (b.freeList c).size = some (some s, h'))
    (hw : h'.spans s = some w) (hwz : w.size = (b.freeList c).size)
    (hsmall : w.numPages * pageSize / w.size ≤ invalidIndex)
    (hhead : ∀ t, (b.freeList c).spanList = some t → t ≠ s ∧ ∃ y, h'.spans t = some y) :
    b.fetchFromPageHeap k c = some (b.linked c s h' w) := by
  have hmod : w.numPages * pageSize / w.size % 2 ^ 32 = w.numPages * pageSize / w.size :=
    Nat.mod_eq_of_lt (by simp only [invalidIndex] at hsmall; omega)
  simp only [fetchFromPageHeap, linked, if_neg (not_or.mpr ⟨hz, hp⟩), ha, Option.bind_eq_bind,
    Option.bind_some, hw]
  cases hl : (b.freeList c).spanList with
  | none =>
      simp only [PageHeap.set, Function.update_self, Option.bind_some, ← hwz, hmod]
      rw [if_neg (not_lt.mpr hsmall)]
      congr 3
      simp only [PageHeap.mk.injEq, and_true]
      funext t
      by_cases hts : t = s
      · subst hts
        simp [pushed, fetched]
      · rw [pushed_of_ne hts (by simp)]
        simp [hts]
  | some r =>
      obtain ⟨hrs, y, hy⟩ := hhead r hl
      simp only [PageHeap.set, Function.update_self, Function.update_of_ne hrs, hy,
        Option.bind_some, Function.update_of_ne (Ne.symm hrs), ← hwz, hmod]
      rw [if_neg (not_lt.mpr hsmall)]
      congr 3
      simp only [PageHeap.mk.injEq, and_true]
      funext t
      by_cases hts : t = s
      · subst hts
        simp [pushed, fetched]
      · by_cases htr : t = r
        · subst htr
          simp [pushed, hts, hy]
        · rw [pushed_of_ne hts (by simpa using Ne.symm htr)]
          simp [hts, htr]

/-- Objects that stay out keep their span, and the kernel was asked for memory once at most. -/
structure Steady (b b' : Backend) (out out' : Nat → Multiset Nat) : Prop where
  route : ∀ c p, p ∈ out c → p ∈ out' c → b'.pageHeap.spanFor p = b.pageHeap.spanFor p
  os : b'.pageHeap.os = b.pageHeap.os ∨ ∃ k n, b'.pageHeap.os = (b.pageHeap.os.mmap k n).2

/-- The lists of the classes other than `c` are as before, and so are the spans on them. -/
structure Apart (b b' : Backend) (S : Nat → List SpanId) (c : Nat) : Prop where
  lists : ∀ d, d ≠ c → b'.freeList d = b.freeList d
  spans : ∀ d t, d ≠ c → t ∈ S d → b'.pageHeap.spans t = b.pageHeap.spans t

theorem Apart.trans {b'' : Backend} (h : Apart b b' S c) (h' : Apart b' b'' S c) :
    Apart b b'' S c :=
  ⟨fun d hd => (h'.lists d hd).trans (h.lists d hd),
    fun d t hd ht => (h'.spans d t hd ht).trans (h.spans d t hd ht)⟩

/-- When `allocate_span` fails, the spans are as they were. -/
theorem Inv.of_failed (hi : Inv table b out L S) {h' : PageHeap} {z : Nat}
    (hh : PageHeap.Inv PageHeap.Rest h' L')
    (ha : PageHeap.Allocated k b.pageHeap n z none h') :
    Inv table { b with pageHeap := h' } out L' S := by
  obtain ⟨hsp, -, -, -⟩ := ha.none
  refine hi.relist rfl hh (fun _ => ⟨rfl, rfl⟩) (fun d => ?_) hi.current (fun d t y ht hy => ?_)
    hi.apart (fun t y hy hf => ?_) (fun d t x i ht hx _ _ => ?_) fun d => ?_
  · show SpanList h'.spans _ _
    rw [hsp]
    exact hi.list d
  · replace hy : h'.spans t = some y := hy
    rw [hsp] at hy
    exact .inl ⟨ht, y, hy, rfl⟩
  · replace hy : h'.spans t = some y := hy
    rw [hsp] at hy
    exact hi.complete t y hy hf
  · exact ⟨ht, x, (congrFun hsp t).trans hx, rfl⟩
  · show _ = freeCount h'.spans _ % _
    rw [hsp]
    exact hi.counted d

section Push

variable {h' : PageHeap} {w : Span}

/-- A span the page heap gives out anew is on no list. -/
theorem Inv.fresh (hi : Inv table b out L S)
    (hnew : ∀ x, b.pageHeap.spans s = some x → x.isFree = true) (d : Nat) : s ∉ S d := by
  intro hs
  obtain ⟨x, hx, hsx⟩ := hi.used hs
  have := hnew x hx
  rw [hsx.used] at this
  cases this

/-- The spans on the lists are others than the new one, and stay as they are. -/
theorem Inv.fetch_keeps (hi : Inv table b out L S) (hk : PageHeap.Keeps b.pageHeap h' s)
    (hnew : ∀ x, b.pageHeap.spans s = some x → x.isFree = true) (ht : t ∈ S d) :
    t ≠ s ∧ h'.spans t = b.pageHeap.spans t := by
  have hts : t ≠ s := fun e => hi.fresh hnew d (e ▸ ht)
  obtain ⟨x, hx, hsx⟩ := hi.used ht
  exact ⟨hts, ((hk t x hts hsx.used).mpr hx).trans hx.symm⟩

theorem linked_self : (b.linked c s h' w).pageHeap.spans s =
    some (fetched w (b.freeList c).spanList) :=
  pushed_self

/-- Linking the new span concerns a `prev` pointer besides. -/
theorem linked_data (hts : t ≠ s) :
    ((b.linked c s h' w).pageHeap.spans t).map Span.data = (h'.spans t).map Span.data :=
  pushed_data h'.spans (b.freeList c).spanList (fetched w (b.freeList c).spanList) hts

theorem Inv.linked_keeps (hi : Inv table b out L S) (hk : PageHeap.Keeps b.pageHeap h' s)
    (hnew : ∀ x, b.pageHeap.spans s = some x → x.isFree = true) (ht : t ∈ S d) :
    ((b.linked c s h' w).pageHeap.spans t).map Span.data =
      (b.pageHeap.spans t).map Span.data := by
  obtain ⟨hts, hsame⟩ := hi.fetch_keeps hk hnew ht
  rw [linked_data hts, hsame]

/-- The spans of the other lists are untouched. -/
theorem Inv.linked_of_other (hi : Inv table b out L S) (hk : PageHeap.Keeps b.pageHeap h' s)
    (hnew : ∀ x, b.pageHeap.spans s = some x → x.isFree = true) (hd : d ≠ c) (ht : t ∈ S d) :
    (b.linked c s h' w).pageHeap.spans t = b.pageHeap.spans t := by
  obtain ⟨hts, hsame⟩ := hi.fetch_keeps hk hnew ht
  rw [← hsame]
  -- `t` is not the old head of the list of `c`
  exact pushed_of_ne hts fun hhead => hd (hi.apart d c t ht ((hi.list c).head_mem hhead))

/-- The page heap does not mind the new span on a list of a class. -/
theorem Inv.linked_heap (hi : Inv table b out L S) (hh : PageHeap.Inv PageHeap.Rest h' L')
    (hw : h'.spans s = some w) (hf : w.isFree = false) (hk : PageHeap.Keeps b.pageHeap h' s)
    (hnew : ∀ x, b.pageHeap.spans s = some x → x.isFree = true) :
    PageHeap.Inv PageHeap.Rest (b.linked c s h' w).pageHeap L' := by
  refine hh.retouch (fun t y hy hyf => ?_) fun t => ?_
  · have hts : t ≠ s := by
      rintro rfl
      obtain rfl := Option.some.inj (hw.symm.trans hy)
      rw [hf] at hyf
      cases hyf
    rw [pushed_of_ne hts, hy]
    -- the old head is in use
    intro hhead
    have ht := (hi.list c).head_mem hhead
    obtain ⟨x, hx, hsx⟩ := hi.used ht
    rw [(hi.fetch_keeps hk hnew ht).2, hx] at hy
    obtain rfl := Option.some.inj hy
    rw [hsx.used] at hyf
    cases hyf
  · by_cases hts : t = s
    · subst hts
      rw [pushed_self, hw]
      rfl
    · exact Span.map_of_data (fun _ => rfl) (linked_data hts)

/-- No object of the new span is out. -/
theorem Inv.linked_none (hi : Inv table b out L S)
    (hheap : PageHeap.Inv PageHeap.Rest (b.linked c s h' w).pageHeap L')
    (hk : PageHeap.Keeps b.pageHeap h' s)
    (hnew : ∀ x, b.pageHeap.spans s = some x → x.isFree = true) (hz : 0 < w.size)
    (hi' : i < (fetched w (b.freeList c).spanList).totalObjects) :
    (fetched w (b.freeList c).spanList).addr i ∉ out d := by
  intro hout
  obtain ⟨t, x, j, ht, hx, hjx, he⟩ := hi.handed d _ hout
  have hpos : 0 < x.size := lt_of_lt_of_le (by decide) (hi.serves d t x ht hx).roomy
  -- the page map would lead from the object to both spans
  have h₁ := hheap.spanFor_eq linked_self rfl hi' (le_refl _) (Nat.lt_add_of_pos_right hz)
  have h₂ := hi.spanFor_kept hheap ht hx (hi.linked_keeps hk hnew ht) hjx
  rw [hi.spanFor_eq ht hx hjx (le_refl _) (Nat.lt_add_of_pos_right hpos), ← he, h₁] at h₂
  exact (hi.fetch_keeps hk hnew ht).1 (Option.some.inj h₂).symm

/-- The new span serves its class: nothing of it is carved. -/
theorem fetched_serves {info : SizeClassInfo} {m : Memory} {o : Multiset Nat}
    {head : Option SpanId} (hf : w.isFree = false) (hwp : w.numPages = info.pages)
    (hwz : w.size = info.size) (hroomy : 8 ≤ info.size)
    (hsmall : info.pages * pageSize / info.size ≤ invalidIndex)
    (hnone : ∀ i < (fetched w head).totalObjects, (fetched w head).addr i ∉ o) :
    (fetched w head).Serves info m o := by
  refine ⟨hf, hwz, hwp, rfl, hwz ▸ hroomy, [], ⟨⟨rfl, by simp⟩, List.nodup_nil, fun i => ?_,
    fun i hi => absurd hi.2 (hnone i hi.1), Nat.zero_le _, ?_, rfl⟩⟩
  · simp [fetched]
  · show w.numPages * pageSize / w.size ≤ invalidIndex
    rw [hwp, hwz]
    exact hsmall

/-- A span fresh from the page heap goes in front of the list of the class. -/
theorem Inv.push (hi : Inv table b out L S) (hok : ClassOk (table c))
    (hz : (table c).size ≠ 0) (hpg : (table c).pages ≠ 0)
    (hh : PageHeap.Inv PageHeap.Rest h' L') (hw : h'.spans s = some w) (hf : w.isFree = false)
    (hwp : w.numPages = (table c).pages) (hwz : w.size = (table c).size)
    (hk : PageHeap.Keeps b.pageHeap h' s)
    (hnew : ∀ x, b.pageHeap.spans s = some x → x.isFree = true) :
    Inv table (b.linked c s h' w) out L' (Function.update S c (s :: S c)) ∧
      ∀ d p, p ∈ out d → (b.linked c s h' w).pageHeap.spanFor p = b.pageHeap.spanFor p := by
  obtain ⟨hroomy, hsmall⟩ := (hok.resolve_left hz).resolve_left hpg
  have hsn := hi.fresh hnew
  have hkept : ∀ {d t}, t ∈ S d → ((b.linked c s h' w).pageHeap.spans t).map Span.data =
      (b.pageHeap.spans t).map Span.data := fun ht => hi.linked_keeps hk hnew ht
  have hheap := hi.linked_heap (c := c) hh hw hf hk hnew
  have hserves : (fetched w (b.freeList c).spanList).Serves (table c) b.mem (out c) :=
    fetched_serves hf hwp hwz hroomy hsmall fun _ hix =>
      hi.linked_none hheap hk hnew (by omega) hix
  have hS : ∀ d t, t ∈ Function.update S c (s :: S c) d ↔ (d = c ∧ t = s) ∨ t ∈ S d := by
    intro d t
    by_cases hd : d = c
    · subst hd; simp
    · simp [hd]
  have hlists : ∀ d, ((b.linked c s h' w).freeList d).spanList =
        (if d = c then some s else (b.freeList d).spanList) ∧
      ((b.linked c s h' w).freeList d).currentSpan =
        (if d = c then some s else (b.freeList d).currentSpan) ∧
      ((b.linked c s h' w).freeList d).size = (b.freeList d).size ∧
      ((b.linked c s h' w).freeList d).pages = (b.freeList d).pages ∧
      ((b.linked c s h' w).freeList d).numFree = (b.freeList d).numFree := by
    intro d
    by_cases hd : d = c
    · subst hd; simp [linked, setList]
    · simp [linked, setList, hd]
  refine ⟨hi.relist rfl hheap (fun d => ⟨(hlists d).2.2.1, (hlists d).2.2.2.1⟩) (fun d => ?_)
    (fun d t ht => ?_) (fun d t y ht hy => ?_) (fun d e t ht ht' => ?_) (fun t y hy hyf => ?_)
    (fun d t x i ht hx _ _ => ?_) fun d => ?_, fun d p hp => ?_⟩
  · rw [(hlists d).1]
    by_cases hd : d = c
    · subst hd
      rw [if_pos rfl, Function.update_self]
      exact ((hi.list d).congr fun t ht => (hi.fetch_keeps hk hnew ht).2).push (hsn d) rfl rfl
    · rw [if_neg hd, Function.update_of_ne hd]
      exact (hi.list d).congr fun t ht => hi.linked_of_other hk hnew hd ht
  · rw [(hlists d).2.1] at ht
    by_cases hd : d = c
    · rw [if_pos hd] at ht
      exact (hS d t).mpr (.inl ⟨hd, (Option.some.inj ht).symm⟩)
    · rw [if_neg hd] at ht
      exact (hS d t).mpr (.inr (hi.current d t ht))
  · rcases (hS d t).mp ht with ⟨rfl, rfl⟩ | ht
    · obtain rfl := Option.some.inj (linked_self.symm.trans hy)
      exact .inr hserves
    · obtain ⟨x, hx, hxy⟩ := Span.some_of_data (hkept ht).symm hy
      exact .inl ⟨ht, x, hx, hxy.symm⟩
  · rcases (hS d t).mp ht with ⟨rfl, rfl⟩ | h₁
    · rcases (hS e t).mp ht' with ⟨rfl, -⟩ | h₂
      · rfl
      · exact absurd h₂ (hsn e)
    · rcases (hS e t).mp ht' with ⟨rfl, rfl⟩ | h₂
      · exact absurd h₁ (hsn d)
      · exact hi.apart d e t h₁ h₂
  · by_cases hts : t = s
    · exact ⟨c, (hS c t).mpr (.inl ⟨rfl, hts⟩)⟩
    · obtain ⟨x, hx, hxy⟩ := Span.some_of_data (linked_data hts).symm hy
      have hxf : x.isFree = false := (Span.data_inj hxy).2.2.2.trans hyf
      obtain ⟨d, ht⟩ := hi.complete t x ((hk t x hts hxf).mp hx) hxf
      exact ⟨d, (hS d t).mpr (.inr ht)⟩
  · exact ⟨(hS d t).mpr (.inr ht), Span.some_of_data (hkept ht) hx⟩
  · rw [(hlists d).2.2.2.2, hi.counted d, ← freeCount_of_data fun t ht => hkept ht]
    by_cases hd : d = c
    · subst hd
      rw [Function.update_self]
      simp [freeCount, linked_self, fetched]
    · rw [Function.update_of_ne hd]
  · obtain ⟨t, x, i, ht, hx, hix, rfl⟩ := hi.handed d p hp
    exact hi.spanFor_kept hheap ht hx (hkept ht) hix

end Push

/-! ### allocate -/

/-- No span of the list has an object left. -/
def Exhausted (b : Backend) (l : List SpanId) : Prop :=
  ∀ t ∈ l, ∀ x, b.pageHeap.spans t = some x → x.hasAvailableObjects = false

/-- What the beginning of `allocate` does. -/
inductive Chosen (info : SizeClassInfo) (k : Kernel) (b : Backend) (c : Nat)
    (S : Nat → List SpanId) : Backend → (Nat → List SpanId) → Prop where
  /-- it caches a span of the list that has an object -/
  | listed {s : SpanId} {x : Span} : s ∈ S c → b.pageHeap.spans s = some x →
      x.hasAvailableObjects = true → Chosen info k b c S (b.cached c (some s)) S
  /-- no span of the list has one, and the page heap gives a new span -/
  | fetched {s : SpanId} {w : Span} {h' : PageHeap} : Exhausted b (S c) →
      PageHeap.Gives k b.pageHeap info.pages info.size (some s) h' → h'.spans s = some w →
      w.numPages = info.pages → w.size = info.size →
      Chosen info k b c S (b.linked c s h' w) (Function.update S c (s :: S c))
  /-- no span of the list has one, and there is no new span -/
  | missing {h' : PageHeap} : Exhausted b (S c) →
      ((info.size = 0 ∨ info.pages = 0) ∧ h' = b.pageHeap) ∨
        PageHeap.Gives k b.pageHeap info.pages info.size none h' →
      Chosen info k b c S ({ b with pageHeap := h' }.cached c none) S

/-- What others have mapped stays, and is never owned. -/
theorem Steady.os_sound (h : Steady b b' out out')
    (hs : ∀ q, b.pageHeap.os.owned q = true → b.pageHeap.os.foreign q = false) :
    b'.pageHeap.os.foreign = b.pageHeap.os.foreign ∧
      ∀ q, b'.pageHeap.os.owned q = true → b'.pageHeap.os.foreign q = false := by
  rcases h.os with h | ⟨k, n, h⟩
  · rw [h]
    exact ⟨rfl, hs⟩
  · rw [h]
    refine ⟨rfl, fun q hq => ?_⟩
    show b.pageHeap.os.foreign q = false
    cases hr : (b.pageHeap.os.mmap k n).1 with
    | none =>
        rw [Os.owned_mmap_none hr] at hq
        exact hs q hq
    | some start =>
        rw [Os.owned_mmap_some hr, Bool.or_eq_true, decide_eq_true_eq] at hq
        rcases hq with ⟨h₁, h₂⟩ | hq
        · have := (Os.mmap_fresh hr).2.2 q h₁ h₂
          rw [Os.mapped, Bool.or_eq_false_iff] at this
          exact this.1
        · exact hs q hq

/-- The system calls made since. -/
theorem Steady.trace (h : Steady b b' out out') :
    ∃ new, b'.pageHeap.os.trace = new ++ b.pageHeap.os.trace := by
  rcases h.os with h | ⟨k, n, h⟩
  · exact ⟨[], by rw [h]; rfl⟩
  · exact ⟨[_], by rw [h]; rfl⟩

theorem Steady.refl (b : Backend) (out out' : Nat → Multiset Nat) : Steady b b out out' :=
  ⟨fun _ _ _ _ => rfl, .inl rfl⟩

/-- A new span, or the reason why there is none. -/
theorem fetchFromPageHeap_spec (hi : Inv table b out L S) (hok : ClassOk (table c)) (k : Kernel)
    (hex : Exhausted b (S c)) (hcur : (b.freeList c).currentSpan = none) :
    ∃ b₁ L₁ S₁, b.fetchFromPageHeap k c = some b₁ ∧ Inv table b₁ out L₁ S₁ ∧ b₁.mem = b.mem ∧
      Steady b b₁ out out ∧ Chosen (table c) k b c S b₁ S₁ := by
  obtain ⟨hsz, hpg⟩ := hi.config c
  have hself : ∀ h', ({ b with pageHeap := h' } : Backend).cached c none =
      { b with pageHeap := h' } :=
    fun h' => by
      have : { b.freeList c with currentSpan := none } = b.freeList c := by rw [← hcur]
      simp only [cached, setList, this, Function.update_eq_self]
  by_cases hno : (b.freeList c).size = 0 ∨ (b.freeList c).pages = 0
  · have hch : Chosen (table c) k b c S ({ b with pageHeap := b.pageHeap }.cached c none) S :=
      .missing hex (.inl ⟨hsz ▸ hpg ▸ hno, rfl⟩)
    rw [hself] at hch
    exact ⟨b, L, S, by rw [fetchFromPageHeap]; simp only [if_pos hno], hi, rfl,
      Steady.refl b out out, hch⟩
  · obtain ⟨hz, hp⟩ := not_or.mp hno
    obtain ⟨r, h', L', hres, hh, ha⟩ := PageHeap.allocateSpan_spec hi.heap k
      (b.freeList c).pages (b.freeList c).size
    have ha' : PageHeap.Gives k b.pageHeap _ _ r h' := ⟨hres, ha⟩
    rw [hsz, hpg] at ha'
    cases r with
    | none =>
        have hch : Chosen (table c) k b c S ({ b with pageHeap := h' }.cached c none) S :=
          .missing hex (.inr ha')
        rw [hself] at hch
        refine ⟨_, L', S, fetchFromPageHeap_none hz hp hres, hi.of_failed hh ha, rfl,
          ⟨fun d p _ _ => ?_, ha.os_eq⟩, hch⟩
        show h'.pageMap (p / pageSize) = b.pageHeap.pageMap (p / pageSize)
        rw [ha.none.2.2.2]
    | some s =>
        obtain ⟨w, hw, hf, hwp, hwz, hk, hnew⟩ := ha.some hi.heap
        have hclass := (hok.resolve_left (hsz ▸ hz)).resolve_left (hpg ▸ hp)
        obtain ⟨hinv, hroute⟩ := hi.push hok (hsz ▸ hz) (hpg ▸ hp) hh hw hf (hwp.trans hpg)
          (hwz.trans hsz) hk hnew
        have hres' := fetchFromPageHeap_some hz hp hres hw hwz
          (by rw [hwp, hwz, hsz, hpg]; exact hclass.2) fun t ht => by
            have hmem := (hi.list c).head_mem ht
            obtain ⟨hts, hsame⟩ := hi.fetch_keeps hk hnew hmem
            rw [hsame]
            exact ⟨hts, (hi.list c).exist t hmem⟩
        exact ⟨_, L', _, hres', hinv, rfl, ⟨fun d p hp _ => hroute d p hp, ha.os_eq⟩,
          .fetched hex ha' hw (hwp.trans hpg) (hwz.trans hsz)⟩

/-- **The choice of a span.** -/
theorem chooseSpan_spec (hi : Inv table b out L S) (hok : ClassOk (table c)) (k : Kernel) :
    ∃ b₁ L₁ S₁, b.chooseSpan k c = some b₁ ∧ Inv table b₁ out L₁ S₁ ∧ b₁.mem = b.mem ∧
      Steady b b₁ out out ∧ Chosen (table c) k b c S b₁ S₁ := by
  -- the cached span is of no use: look for another one
  have hsearch : b.currentAvailable c = some false → ∃ b₁ L₁ S₁, b.chooseSpan k c = some b₁ ∧
      Inv table b₁ out L₁ S₁ ∧ b₁.mem = b.mem ∧ Steady b b₁ out out ∧
      Chosen (table c) k b c S b₁ S₁ := by
    intro hcur
    obtain ⟨r, hr, hnone, hsome⟩ := hi.findAvailableSpan c
    have hi₁ : Inv table (b.cached c r) out L S := hi.setCurrent c r fun t ht => (hsome t ht).1
    have hcur₁ : ((b.cached c r).freeList c).currentSpan = r := by simp [cached, setList]
    have hcached : b.setList c { b.freeList c with currentSpan := r } = b.cached c r := rfl
    cases r with
    | some s =>
        obtain ⟨hs, x, hx, ha⟩ := hsome s rfl
        refine ⟨_, L, S, ?_, hi₁, rfl, ⟨fun _ _ _ _ => rfl, .inl rfl⟩, .listed hs hx ha⟩
        simp [chooseSpan, hcur, hr, hcached, hcur₁]
    | none =>
        have hex : Exhausted b (S c) := hnone rfl
        obtain ⟨b₁, L₁, S₁, hres, hinv, hmem, hroute, hch⟩ :=
          fetchFromPageHeap_spec hi₁ hok k hex hcur₁
        refine ⟨b₁, L₁, S₁, ?_, hinv, hmem, ⟨hroute.route, hroute.os⟩, ?_⟩
        · simp [chooseSpan, hcur, hr, hcached, hcur₁, hres]
        · cases hch with
          | listed hs hx ha =>
              have := hex _ hs _ hx
              rw [ha] at this
              cases this
          | fetched _ h₁ h₂ h₃ h₄ =>
              rw [linked_cached]
              exact .fetched hex h₁ h₂ h₃ h₄
          | @missing h' _ h₁ =>
              have : ({ (b.cached c none) with pageHeap := h' } : Backend).cached c none =
                  ({ b with pageHeap := h' } : Backend).cached c none := by
                simp [cached, setList]
              rw [this]
              exact .missing hex h₁
  cases hc : (b.freeList c).currentSpan with
  | none => exact hsearch (by simp [currentAvailable, hc])
  | some s =>
      have hs := hi.current c s hc
      obtain ⟨x, hx, -⟩ := hi.used hs
      cases ha : x.hasAvailableObjects with
      | false => exact hsearch (by simp [currentAvailable, hc, hx, ha])
      | true =>
          have hch : Chosen (table c) k b c S (b.cached c (some s)) S := .listed hs hx ha
          rw [cached_self hc] at hch
          refine ⟨b, L, S, ?_, hi, rfl, Steady.refl _ _ _, hch⟩
          simp [chooseSpan, currentAvailable, hc, hx, ha]

theorem served_self (hx : b.pageHeap.spans s = some x) :
    served b c s b.mem x (b.freeList c).numFree = b := by
  have : Function.update b.pageHeap.spans s (some x) = b.pageHeap.spans := by
    rw [← hx, Function.update_eq_self]
  simp [served, setSpan, setList, PageHeap.set, this]

/-- A span without objects gives none, and stays as it is. -/
theorem takeFrom_exhausted (hi : Inv table b out L S) (hx : b.pageHeap.spans s = some x)
    (hh : x.freelistHead = invalidIndex) (ht : x.totalObjects ≤ x.nextUninitialized) :
    b.takeFrom c s = some (0, b) := by
  have hn : add32 (b.freeList c).numFree 0 = (b.freeList c).numFree := by
    rw [add32, hi.counted c]
    omega
  have hp := populateSpan_eq (c := c) hx
    (show populate b.mem (b.freeList c).size x = (b.mem, x, 0) by rw [populate, if_pos ht])
  rw [hn, served_self hx] at hp
  rw [takeFrom_empty hx hh hp hx, if_pos hh]

/-- `[a, a + k)` lies inside one object of class `c` that is not out. -/
def FreeObject (b : Backend) (S : Nat → List SpanId) (o : Multiset Nat) (c a k : Nat) : Prop :=
  ∃ s x, s ∈ S c ∧ b.pageHeap.spans s = some x ∧ FreeSlot x (x.Out o) a k

/-- `p` joins what is out in class `c`, unless it is null. -/
def gain (out : Nat → Multiset Nat) (c p : Nat) : Nat → Multiset Nat :=
  if p = 0 then out else Function.update out c (p ::ₘ out c)

/-- What `allocate` does. -/
inductive Allocates (info : SizeClassInfo) (k : Kernel) (b : Backend) (c : Nat) (o : Multiset Nat)
    (S : Nat → List SpanId) : Nat → Backend → (Nat → List SpanId) → Prop where
  /-- it takes an object of the chosen span -/
  | took {b₁ : Backend} {S₁ : Nat → List SpanId} {s : SpanId} {x y : Span} {j n : Nat}
      {m' : Memory} : Chosen info k b c S b₁ S₁ → (b₁.freeList c).currentSpan = some s →
      s ∈ S₁ c → b₁.pageHeap.spans s = some x → x.hasAvailableObjects = true →
      j < x.totalObjects → x.addr j ≠ 0 → x.addr j ∉ o → x.Restocked y →
      Memory.Wrote (FreeSlot x (x.Out o)) b.mem m' →
      Allocates info k b c o S (x.addr j) (served b₁ c s m' y n) S₁
  /-- the page heap has given a span, which has no room for an object -/
  | barren {s : SpanId} {w : Span} {h' : PageHeap} : Exhausted b (S c) →
      PageHeap.Gives k b.pageHeap info.pages info.size (some s) h' → h'.spans s = some w →
      info.pages * pageSize / info.size = 0 →
      Allocates info k b c o S 0 (b.linked c s h' w) (Function.update S c (s :: S c))
  /-- there is no span -/
  | missing {h' : PageHeap} : Exhausted b (S c) →
      ((info.size = 0 ∨ info.pages = 0) ∧ h' = b.pageHeap) ∨
        PageHeap.Gives k b.pageHeap info.pages info.size none h' →
      Allocates info k b c o S 0 ({ b with pageHeap := h' }.cached c none) S

/-- **`allocate`** is defined, and returns an object that was not out or null. -/
theorem allocate_cases (hi : Inv table b out L S) (hok : ClassOk (table c)) (k : Kernel) :
    ∃ p b' L' S', b.allocate k c = some (p, b') ∧ Inv table b' (gain out c p) L' S' ∧
      Steady b b' out out ∧ Allocates (table c) k b c (out c) S p b' S' := by
  obtain ⟨b₁, L₁, S₁, hres, hi₁, hmem, hsteady, hch⟩ := chooseSpan_spec hi hok k
  -- an object of the span `s`
  have htake : ∀ {s x}, (b₁.freeList c).currentSpan = some s → s ∈ S₁ c →
      b₁.pageHeap.spans s = some x → x.hasAvailableObjects = true →
      ∃ p b' L' S', b.allocate k c = some (p, b') ∧ Inv table b' (gain out c p) L' S' ∧
        Steady b b' out out ∧ Allocates (table c) k b c (out c) S p b' S' := by
    intro s x hcur hs hx ha
    obtain ⟨j, m', y, n, htk, hjt, hjo, hy, hw, hinv⟩ := takeFrom_spec hi₁ hs hx ha
    have hne := hinv.ne_zero (c := c) (p := x.addr j) (by simp)
    refine ⟨x.addr j, served b₁ c s m' y n, L₁, S₁, ?_, ?_, ⟨hsteady.route, hsteady.os⟩,
      .took hch hcur hs hx ha hjt hne hjo hy (hmem ▸ hw)⟩
    · rw [allocate, hres]
      simp only [Option.bind_eq_bind, Option.bind_some, hcur, htk]
    · rw [gain, if_neg hne]
      exact hinv
  have hzero : Inv table b₁ (gain out c 0) L₁ S₁ := by rwa [gain, if_pos rfl]
  cases hch with
  | listed hs hx ha => exact htake (by simp [cached, setList]) hs hx ha
  | @fetched s w h' hex hal hw hp hz =>
      have hcur : ((b.linked c s h' w).freeList c).currentSpan = some s := by
        simp [linked, setList]
      have hx : (b.linked c s h' w).pageHeap.spans s =
          some (Backend.fetched w (b.freeList c).spanList) := pushed_self
      have htotal : (Backend.fetched w (b.freeList c).spanList).totalObjects =
          (table c).pages * pageSize / (table c).size := by
        show w.numPages * pageSize / w.size = _
        rw [hp, hz]
      by_cases h0 : (table c).pages * pageSize / (table c).size = 0
      · refine ⟨0, _, L₁, _, ?_, hzero, hsteady, .barren hex hal hw h0⟩
        rw [allocate, hres]
        simp only [Option.bind_eq_bind, Option.bind_some, hcur]
        exact takeFrom_exhausted hi₁ hx rfl (by omega)
      · refine htake hcur (by simp) hx ?_
        show (decide _ || decide (0 < _)) = true
        rw [htotal, Bool.or_eq_true, decide_eq_true_eq]
        exact .inr (decide_eq_true (Nat.pos_of_ne_zero h0))
  | @missing h' hex hwhy =>
      refine ⟨0, _, L₁, S, ?_, hzero, hsteady, .missing hex hwhy⟩
      rw [allocate, hres]
      simp [cached, setList]

/-- A chosen span that was not on the list is a new one. -/
theorem Chosen.mem_or {info : SizeClassInfo} {S₁ : Nat → List SpanId}
    (h : Chosen info k b c S b' S₁) {d : Nat} (ht : t ∈ S₁ d) :
    t ∈ S d ∨ d = c ∧ (b'.freeList c).currentSpan = some t := by
  cases h with
  | listed _ _ _ => exact .inl ht
  | missing _ _ => exact .inl ht
  | @fetched s w h' _ _ _ _ _ =>
      by_cases hd : d = c
      · subst hd
        rw [Function.update_self] at ht
        rcases List.mem_cons.mp ht with rfl | ht
        · exact .inr ⟨rfl, by simp [linked, setList]⟩
        · exact .inl ht
      · rw [Function.update_of_ne hd] at ht
        exact .inl ht

theorem Chosen.apart {S₁ : Nat → List SpanId} (hi : Inv table b out L S)
    (h : Chosen info k b c S b' S₁) : Apart b b' S c := by
  cases h with
  | listed _ _ _ => exact ⟨fun d hd => by simp [cached, setList, hd], fun _ _ _ _ => rfl⟩
  | @missing h' _ hwhy =>
      have hsp : h'.spans = b.pageHeap.spans := by
        rcases hwhy with ⟨-, rfl⟩ | ha
        · rfl
        · exact ha.2.none.1
      exact ⟨fun d hd => by simp [cached, setList, hd], fun d t _ _ => congrFun hsp t⟩
  | @fetched s w h' _ ha _ _ _ =>
      obtain ⟨-, -, -, -, -, hk, hnew⟩ := ha.2.some hi.heap
      exact ⟨fun d hd => by simp [linked, setList, hd],
        fun d t hd ht => hi.linked_of_other hk hnew hd ht⟩

theorem Chosen.lists_eq {S₁ : Nat → List SpanId} (h : Chosen info k b c S b' S₁) (hd : d ≠ c) :
    S₁ d = S d := by
  cases h with
  | listed _ _ _ | missing _ _ => rfl
  | fetched _ _ _ _ _ => exact Function.update_of_ne hd _ _

/-- What `allocate` does concerns its class only. -/
theorem Allocates.apart (hi : Inv table b out L S) (hi' : Inv table b' out' L' S')
    (h : Allocates info k b c o S p b' S') : Apart b b' S c := by
  cases h with
  | took hch _ hs _ _ _ _ _ _ _ =>
      obtain ⟨hlists, hspans⟩ := hch.apart hi
      refine ⟨fun d hd => ?_, fun d t hd ht => ?_⟩
      · rw [← hlists d hd]
        simp [served, setSpan, setList, hd]
      · rw [← hspans d t hd ht]
        refine served_spans_of_ne fun hts => hd ?_
        exact hi'.apart d c t ((hch.lists_eq hd).symm ▸ ht) (hts ▸ hs)
  | barren hex ha hw _ =>
      obtain ⟨y, hy, -, hp, hz, -⟩ := ha.2.some hi.heap
      obtain rfl := Option.some.inj (hw.symm.trans hy)
      exact (Chosen.fetched hex ha hw hp hz).apart hi
  | missing hex hwhy => exact (Chosen.missing hex hwhy).apart hi

theorem Allocates.lists_eq (h : Allocates info k b c o S p b' S') (hd : d ≠ c) : S' d = S d := by
  cases h with
  | took hch _ _ _ _ _ _ _ _ _ => exact hch.lists_eq hd
  | barren _ _ _ _ => exact Function.update_of_ne hd _ _
  | missing _ _ => rfl

/-- `allocate` stores into objects of the class that were not out. -/
theorem Allocates.wrote (h : Allocates info k b c o S p b' S') :
    Memory.Wrote (FreeObject b' S' o c) b.mem b'.mem := by
  cases h with
  | @took b₁ _ s x y j n m' _ _ hs _ _ _ _ _ hy hw =>
      refine hw.mono fun a l hf => ⟨s, y, hs, served_spans, ?_⟩
      rw [hy.out_eq, hy.freeSlot]
      exact hf
  | barren _ _ _ _ => exact Memory.Wrote.refl _ _
  | missing _ _ => exact Memory.Wrote.refl _ _

/-- `allocate` in terms of what is out and what is written. -/
theorem allocate_spec (hi : Inv table b out L S) (hok : ClassOk (table c)) (k : Kernel) :
    ∃ p b' L' S', b.allocate k c = some (p, b') ∧ Inv table b' (gain out c p) L' S' ∧
      (p ≠ 0 → p ∉ out c) ∧
      Memory.Wrote (FreeObject b' S' (out c) c) b.mem b'.mem ∧
      Steady b b' out out ∧
      (∀ d t, t ∈ S' d → t ∈ S d ∨ d = c ∧ ((table c).pages * pageSize / (table c).size = 0 ∨
        p ≠ 0 ∧ b'.pageHeap.spanFor p = some t)) ∧
      ((table c).pages * pageSize / (table c).size = 0 → p = 0) ∧
      (p = 0 → (table c).pages * pageSize / (table c).size = 0 ∨ maxPages < (table c).pages ∨
        b'.pageHeap.os.trace = .mmap (table c).pages none :: b.pageHeap.os.trace) := by
  obtain ⟨p, b', L', S', hres, hi', hsteady, hcase⟩ := allocate_cases hi hok k
  have hwrote := hcase.wrote
  refine ⟨p, b', L', S', hres, hi', ?_⟩
  cases hcase with
  | @took b₁ S₁ s x y j n m' hch hcur hs hx ha hj hne hjo hy hw =>
      have hsy := hi'.serves c s y hs served_spans
      have hjy : j < y.totalObjects := hy.fields.2.2.2.1 ▸ hj
      have hpos : 0 < y.size := lt_of_lt_of_le (by decide) hsy.roomy
      have hfor := hi'.spanFor_eq hs served_spans hjy (le_refl _) (Nat.lt_add_of_pos_right hpos)
      rw [hy.addr_eq j] at hfor
      refine ⟨fun _ => hjo, hwrote, hsteady, fun d t ht => ?_, fun h0 => ?_, fun h => absurd h hne⟩
      · refine (hch.mem_or ht).imp_right fun h => ⟨h.1, .inr ⟨hne, ?_⟩⟩
        rw [hfor, ← hcur]
        exact h.2
      · have := hsy.total
        rw [hsy.pages_eq, hsy.size_eq] at this
        omega
  | barren hex hal hw h0 =>
      refine ⟨fun h => absurd rfl h, hwrote, hsteady, fun d t ht => ?_, fun _ => rfl,
        fun _ => .inl h0⟩
      by_cases hd : d = c
      · exact .inr ⟨hd, .inl h0⟩
      · rw [Function.update_of_ne hd] at ht
        exact .inl ht
  | missing hex hwhy =>
      refine ⟨fun h => absurd rfl h, hwrote, hsteady, fun d t ht => .inl ht,
        fun _ => rfl, fun _ => ?_⟩
      rcases hwhy with ⟨h | h, -⟩ | ha
      · exact .inl (by rw [h, Nat.div_zero])
      · exact .inl (by rw [h, Nat.zero_mul, Nat.zero_div])
      · cases ha.2 with
        | rejected h =>
            exact h.elim (fun h => .inl (by rw [h, Nat.zero_mul, Nat.zero_div]))
              fun h => .inr (.inl h)
        | failed _ hm heq =>
            refine .inr (.inr ?_)
            rw [heq, ← hm]
            rfl

end Backend

end TieredAllocator
