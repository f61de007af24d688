import TieredAllocator.Lib.Runs
import TieredAllocator.PageHeap.Destroy

/-!
# Page heap — runs

The page heap as a system whose steps are its public calls, with spans in use for `return_span`
and existing spans for `deallocate_span`.  The kernel is part of the label, so a run ranges over
all answers of `mmap`.  Each call keeps the invariant and is defined (`calls_step`), so the
invariant holds after each run (`Run.inv`); the two main theorems read it back in terms of the
page map (`pageMap_exact`) and of the free lists (`freeLists_exact`).
-/

namespace TieredAllocator.PageHeap
open Lib

/-- A public call and its arguments. -/
inductive Call where
  | allocateSpan (k : Kernel) (numPages size : Nat)
  | returnSpan (s : Option SpanId)
  | deallocateSpan (s : Option SpanId)

/-- `return_span` takes spans in use, `deallocate_span` existing ones, and both `nullptr`. -/
def Call.allowed (h : PageHeap) : Call → Bool
  | .allocateSpan _ _ _ => true
  | .returnSpan none => true
  | .returnSpan (some s) => (h.spans s).any fun x => !x.isFree
  | .deallocateSpan none => true
  | .deallocateSpan (some s) => (h.spans s).isSome

def Call.step (h : PageHeap) : Call → Option PageHeap
  | .allocateSpan k numPages size => (h.allocateSpan k numPages size).map Prod.snd
  | .returnSpan s => h.returnSpan s
  | .deallocateSpan s => (h.deallocateSpan s).map Prod.snd

def calls : System PageHeap Call where
  allowed h c := c.allowed h = true
  step h c := c.step h

instance (h : PageHeap) (c : Call) : Decidable (calls.allowed h c) :=
  inferInstanceAs (Decidable (c.allowed h = true))

variable {foreign : Nat → Bool} {h h' : PageHeap} {L : Nat → List SpanId} {c : Call}
  {cs : List Call} {s : SpanId}

theorem Call.allowed_returnSpan (ha : calls.allowed h (.returnSpan (some s))) :
    ∃ x, h.spans s = some x ∧ x.isFree = false := by
  simpa [calls, Call.allowed, Option.any_eq_true_iff_get, Option.isSome_iff_exists] using
    (Option.any_eq_true _ _).mp ha

theorem Call.allowed_deallocateSpan (ha : calls.allowed h (.deallocateSpan (some s))) :
    ∃ x, h.spans s = some x :=
  Option.isSome_iff_exists.mp ha

/-- Each call is defined and keeps the invariant. -/
theorem calls_step (hi : Inv Rest h L) (ha : calls.allowed h c) :
    ∃ h' L', calls.step h c = some h' ∧ Inv Rest h' L' := by
  cases c with
  | allocateSpan k n size =>
      obtain ⟨r, h', L', hres, hi', -⟩ := allocateSpan_spec hi k n size
      exact ⟨h', L', by simp [calls, Call.step, hres], hi'⟩
  | returnSpan s =>
      cases s with
      | none => exact ⟨h, L, rfl, hi⟩
      | some s =>
          obtain ⟨x, hx, hu⟩ := Call.allowed_returnSpan ha
          obtain ⟨h', L', hres, hi', -⟩ := returnSpan_spec hi hx hu
          exact ⟨h', L', hres, hi'⟩
  | deallocateSpan s =>
      cases s with
      | none => exact ⟨h, L, rfl, hi⟩
      | some s =>
          obtain ⟨x, hx⟩ := Call.allowed_deallocateSpan ha
          obtain ⟨h', L', hres, hi', -⟩ := deallocateSpan_spec hi hx
          exact ⟨h', L', by simp [calls, Call.step, hres], hi'⟩

/-- **Runs.**  The invariant holds after each run. -/
theorem Run.inv (r : calls.Run (init foreign) cs h) : ∃ L, Inv Rest h L := by
  refine r.invariant (I := fun h => ∃ L, Inv Rest h L) ?_ ⟨_, Inv.init foreign⟩
  rintro h c h' ⟨L, hi⟩ ha hstep
  obtain ⟨h'', L', hres, hi'⟩ := calls_step hi ha
  obtain rfl := Option.some.inj (hres.symm.trans hstep)
  exact ⟨L', hi'⟩

/-! ### The page map -/

/-- The page map is exact: spans do not overlap, each page of a span leads to it, no other page
leads anywhere, and the pages that lead somewhere are those mapped and not unmapped. -/
structure PageMapExact (h : PageHeap) : Prop where
  disjoint : ∀ s t x y, h.spans s = some x → h.spans t = some y → s ≠ t →
    x.start + x.numPages ≤ y.start ∨ y.start + y.numPages ≤ x.start
  entry : ∀ q s, h.pageMap q = some s ↔
    ∃ x, h.spans s = some x ∧ x.start ≤ q ∧ q < x.start + x.numPages
  conserved : ∀ q, (h.pageMap q).isSome = h.os.owned q

theorem Inv.pageMapExact (hi : Inv Rest h L) : PageMapExact h where
  disjoint s t x y hx hy hne := by
    have hxb := hi.bounds s x hx
    have hyb := hi.bounds t y hy
    rcases hi.exact.disjoint (ext_eq hx) (ext_eq hy) hne with h | h | h | h <;>
      simp only [Span.extent] at h <;> omega
  entry q s := (hi.exact q s).trans covers_iff
  conserved := hi.owned

/-- The set of registered pages depends on the system calls only. -/
theorem registered_eq (hi : PageMapExact h) (hi' : PageMapExact h')
    (hos : h'.os.trace = h.os.trace) (q : Nat) : (h'.pageMap q).isSome = (h.pageMap q).isSome := by
  rw [hi.conserved, hi'.conserved, Os.owned, Os.owned, hos]

/-- **Page map exactness and page conservation.**  After each run the page map is exact;
`return_span` of a span in use, and an `allocate_span` that takes an existing span off a free
list, leave the set of registered pages as it is. -/
theorem pageMap_exact (r : calls.Run (init foreign) cs h) :
    PageMapExact h ∧
      (∀ s x, h.spans s = some x → x.isFree = false → ∃ h', h.returnSpan (some s) = some h' ∧
        PageMapExact h' ∧ ∀ q, (h'.pageMap q).isSome = (h.pageMap q).isSome) ∧
      (∀ k n size, ∃ r h', h.allocateSpan k n size = some (r, h') ∧ PageMapExact h' ∧
        ∀ s x, r = some s → h.spans s = some x →
          ∀ q, (h'.pageMap q).isSome = (h.pageMap q).isSome) ∧
      (∀ s x, h.spans s = some x → ∃ h', h.deallocateSpan (some s) = some (true, h') ∧
        PageMapExact h' ∧ h'.os.trace = .munmap x.start x.numPages :: h.os.trace) := by
  obtain ⟨L, hi⟩ := Run.inv r
  have hex := hi.pageMapExact
  refine ⟨hex, fun s x hx hu => ?_, fun k n size => ?_, fun s x hx => ?_⟩
  · obtain ⟨h', L', hres, hi', -, -, hos, -⟩ := returnSpan_spec hi hx hu
    exact ⟨h', hres, hi'.pageMapExact, registered_eq hex hi'.pageMapExact (by rw [hos])⟩
  · obtain ⟨r, h', L', hres, hi', hall⟩ := allocateSpan_spec hi k n size
    refine ⟨r, h', hres, hi'.pageMapExact, fun s x hr hx => ?_⟩
    cases hall with
    | rejected _ => cases hr
    | failed _ _ _ => cases hr
    | reused _ _ _ _ _ _ _ hos _ => exact registered_eq hex hi'.pageMapExact (by rw [hos])
    | mapped _ _ _ _ _ _ =>
        obtain rfl := Option.some.inj hr
        exact absurd (hi.ids _ x hx) (lt_irrefl _)
  · obtain ⟨h', L', hres, hi', -, -, hos, -⟩ := deallocateSpan_spec hi hx
    exact ⟨h', hres, hi'.pageMapExact, by rw [hos]; rfl⟩

/-! ### The free lists -/

/-- `L i` is the chain from `free_lists[i]`: mirrored links, no repetition, increasing starts,
and exactly the free spans of `i` pages, all of size 0.  Spans have 1 to `MAX_PAGES` pages, and
spans in use are on no list. -/
structure FreeListsExact (h : PageHeap) (L : Nat → List SpanId) : Prop where
  linked : ∀ i, Linked (nextOf h.spans) (prevOf h.spans) none (h.freeLists i) (L i)
  nodup : ∀ i, (L i).Nodup
  increasing : ∀ i, (L i).Pairwise fun s t =>
    ∀ x y, h.spans s = some x → h.spans t = some y → x.start < y.start
  member : ∀ i s, s ∈ L i ↔ ∃ x, h.spans s = some x ∧ x.isFree = true ∧ x.numPages = i
  size : ∀ i s x, s ∈ L i → h.spans s = some x → x.size = 0
  bounds : ∀ s x, h.spans s = some x → 0 < x.numPages ∧ x.numPages ≤ maxPages
  used : ∀ s x, h.spans s = some x → x.isFree = false → ∀ i, s ∉ L i

theorem Inv.freeListsExact (hi : Inv Rest h L) : FreeListsExact h L where
  linked i := (hi.list i).linked
  nodup i := (hi.list i).nodup
  increasing := hi.increasing
  member i s := by
    constructor
    · intro hs
      obtain ⟨x, hx⟩ := (hi.list i).exist s hs
      obtain ⟨hf, hn, -⟩ := hi.listed i s x hs hx
      exact ⟨x, hx, hf, hn⟩
    · rintro ⟨x, hx, hf, rfl⟩
      exact hi.complete s x hx (by simp) hf
  size i s x hs hx := (hi.listed i s x hs hx).2.2
  bounds s x hx := ⟨(hi.bounds s x hx).2.1, hi.small s x hx (by simp)⟩
  used s x hx hu i := hi.not_mem_of_used hx hu

/-- **The free lists.**  After each run the free lists are exact, and each walk over them ends:
each allowed call returns, and so does the destructor. -/
theorem freeLists_exact (r : calls.Run (init foreign) cs h) :
    (∃ L, FreeListsExact h L) ∧ (∀ c, calls.allowed h c → ∃ h', calls.step h c = some h') ∧
      ∃ h', h.destroy = some h' ∧ ∀ s x, h.spans s = some x →
        h'.spans s = if x.isFree then none else some x := by
  obtain ⟨L, hi⟩ := Run.inv r
  refine ⟨⟨L, hi.freeListsExact⟩, fun c ha => ?_, ?_⟩
  · obtain ⟨h', L', hres, -⟩ := calls_step hi ha
    exact ⟨h', hres⟩
  · obtain ⟨h', hres, -, hsp⟩ := destroy_spec hi
    refine ⟨h', hres, fun s x hx => ?_⟩
    rw [hsp s]
    by_cases hf : x.isFree = true
    · rw [if_pos hf, if_pos ⟨_, hi.complete s x hx (by simp) hf⟩]
    · rw [if_neg hf, if_neg, hx]
      rintro ⟨i, hs⟩
      exact hf (hi.listed i s x hs hx).1

/-! ### A run -/

/-- The kernel that places the `i`-th mapping at the `i`-th page of the list. -/
def kernelOf (starts : List Nat) : Kernel := fun i => starts[i]?

/-- Two adjacent mappings, of which the first is returned, reused for 1 page and returned again,
and the second is unmapped. -/
def sampleCalls : List Call :=
  [.allocateSpan (kernelOf [16, 20]) 4 64, .allocateSpan (kernelOf [16, 20]) 2 128,
    .returnSpan (some 0), .allocateSpan (kernelOf []) 1 8, .returnSpan (some 0),
    .deallocateSpan (some 1)]

theorem sampleCalls_run : ∃ h, calls.Run (init fun _ => false) sampleCalls h := by
  have h : (calls.replay (init fun _ => false) sampleCalls).isSome = true := by decide +kernel
  obtain ⟨u, hu⟩ := Option.isSome_iff_exists.mp h
  exact ⟨u, System.Run.of_replay hu⟩

theorem pageMap_exact_sample :
    ∃ h, calls.Run (init fun _ => false) sampleCalls h ∧ PageMapExact h := by
  obtain ⟨h, r⟩ := sampleCalls_run
  exact ⟨h, r, (pageMap_exact r).1⟩

theorem freeLists_exact_sample :
    ∃ h, calls.Run (init fun _ => false) sampleCalls h ∧ ∃ L, FreeListsExact h L := by
  obtain ⟨h, r⟩ := sampleCalls_run
  exact ⟨h, r, (freeLists_exact r).1⟩

end TieredAllocator.PageHeap
