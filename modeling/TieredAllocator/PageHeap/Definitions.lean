import TieredAllocator.Config.Layout

/-!
# Page heap — definitions

`page_heap.hpp`, function by function.  A `Span*` is a `SpanId`, the heap of `Span` objects a
partial map from ids, and `new` hands out the next unused id, so that a pointer kept after
`delete` stays recognisable.  Every function returns an `Option`: `none` is undefined behaviour
(a null or dangling pointer is followed) or a loop that does not end, so a result `some _` says
that the call is safe and terminates.

`Os` is what the process sees of the kernel.  `mmap` asks a `Kernel` for a start page and refuses
an answer that is not a fresh range, so a `Kernel` ranges over all behaviours of the system call,
failure included; the calls made are kept in `Os.trace`, most recent first.
-/

namespace TieredAllocator

/-- A `Span*`. -/
abbrev SpanId := Nat

/-- `INVALID_INDEX`. -/
def invalidIndex : Nat := 0xFFFF

structure Span where
  /-- page id, address / `PAGE_SIZE` -/
  start : Nat
  numPages : Nat
  next : Option SpanId := none
  prev : Option SpanId := none
  size : Nat := 0
  totalObjects : Nat := 0
  numFreeObjects : Nat := 0
  nextUninitialized : Nat := 0
  freelistHead : Nat := invalidIndex
  isFree : Bool := false
deriving DecidableEq, Repr

/-! ### The operating system -/

inductive Syscall where
  /-- `mmap` of `n` pages, and the start page it returned, if it succeeded. -/
  | mmap (n : Nat) (start : Option Nat)
  | munmap (start n : Nat)
deriving DecidableEq, Repr

/-- The pages mapped by a list of calls, most recent first. -/
def ownedBy : List Syscall → Nat → Bool
  | [], _ => false
  | .mmap n (some start) :: tr, q => (start ≤ q && q < start + n) || ownedBy tr q
  | .mmap _ none :: tr, q => ownedBy tr q
  | .munmap start n :: tr, q => !(start ≤ q && q < start + n) && ownedBy tr q

structure Os where
  /-- pages the rest of the process has mapped -/
  foreign : Nat → Bool
  trace : List Syscall

namespace Os

/-- The pages the page heap has mapped and not unmapped. -/
def owned (os : Os) (q : Nat) : Bool := ownedBy os.trace q

def mapped (os : Os) (q : Nat) : Bool := os.foreign q || os.owned q

/-- One past the last page of a 64-bit address space. -/
def pageLimit : Nat := 2 ^ 52

/-- `n` pages from `start` are a range `mmap` may return: not at address 0, inside the address
space, and disjoint from everything mapped. -/
def fresh (os : Os) (start n : Nat) : Bool :=
  0 < start && start + n ≤ pageLimit && (List.range n).all fun p => !os.mapped (start + p)

end Os

/-- The start page the kernel offers for the `i`-th system call; `none` is `MAP_FAILED`. -/
abbrev Kernel := Nat → Option Nat

namespace Os

def mmap (k : Kernel) (os : Os) (n : Nat) : Option Nat × Os :=
  let r := (k os.trace.length).filter fun start => os.fresh start n
  (r, { os with trace := .mmap n r :: os.trace })

def munmap (os : Os) (start n : Nat) : Os := { os with trace := .munmap start n :: os.trace }

end Os

/-! ### The page heap -/

structure PageHeap where
  /-- the `Span` objects that exist -/
  spans : SpanId → Option Span
  /-- the next object `new Span{}` creates -/
  nextId : Nat
  freeLists : Nat → Option SpanId
  pageMap : Nat → Option SpanId
  os : Os

namespace PageHeap

/-- The empty heap of a process that has mapped `foreign`. -/
def init (foreign : Nat → Bool) : PageHeap where
  spans _ := none
  nextId := 0
  freeLists _ := none
  pageMap _ := none
  os := ⟨foreign, []⟩

def set (h : PageHeap) (s : SpanId) (x : Span) : PageHeap :=
  { h with spans := Function.update h.spans s (some x) }

/-- `new Span{}`, initialised. -/
def new (h : PageHeap) (x : Span) : SpanId × PageHeap :=
  (h.nextId, { h with spans := Function.update h.spans h.nextId (some x), nextId := h.nextId + 1 })

def delete (h : PageHeap) (s : SpanId) : Option PageHeap := do
  let _ ← h.spans s
  some { h with spans := Function.update h.spans s none }

/-! #### Page map helpers -/

/-- The loop of both helpers: entry `start + p` becomes `v`, for `p` from 0 to `n - 1`. -/
def setPages (m : Nat → Option SpanId) (start n : Nat) (v : Option SpanId) :
    Nat → Option SpanId :=
  (List.range n).foldl (fun m p => Function.update m (start + p) v) m

def registerSpan (h : PageHeap) (s : SpanId) : Option PageHeap := do
  let x ← h.spans s
  some { h with pageMap := setPages h.pageMap x.start x.numPages (some s) }

def unregisterSpan (h : PageHeap) (s : SpanId) : Option PageHeap := do
  let x ← h.spans s
  some { h with pageMap := setPages h.pageMap x.start x.numPages none }

def lookup (h : PageHeap) (page : Nat) : Option SpanId := h.pageMap page

def spanFor (h : PageHeap) (ptr : Nat) : Option SpanId := h.lookup (ptr / pageSize)

end PageHeap

/-! #### Free-list helpers -/

/-- `if (span->prev) span->prev->next = span->next; else head = span->next;
if (span->next) span->next->prev = span->prev; span->next = span->prev = nullptr;`
as `remove_from_free_list` and `release_to_page_heap` both do it. -/
def unlink (spans : SpanId → Option Span) (head : Option SpanId) (s : SpanId) :
    Option ((SpanId → Option Span) × Option SpanId) := do
  let x ← spans s
  let (spans, head) ← match x.prev with
    | some p => do
        let y ← spans p
        some (Function.update spans p (some { y with next := x.next }), head)
    | none => some (spans, x.next)
  let x ← spans s
  let spans ← match x.next with
    | some n => do
        let y ← spans n
        some (Function.update spans n (some { y with prev := x.prev }))
    | none => some spans
  let x ← spans s
  some (Function.update spans s (some { x with next := none, prev := none }), head)

/-- The walk of `insert`: the last node passed and the first one whose start lies beyond. -/
def insertWalk (spans : SpanId → Option Span) (start : Nat) :
    (fuel : Nat) → (prev curr : Option SpanId) → Option (Option SpanId × Option SpanId)
  | 0, _, _ => none
  | _ + 1, prev, none => some (prev, none)
  | fuel + 1, prev, some c => do
      let y ← spans c
      if start < y.start then some (prev, some c)
      else insertWalk spans start fuel (some c) y.next

namespace PageHeap

/-- More rounds than any chain of existing spans has nodes. -/
def walkFuel (h : PageHeap) : Nat := h.nextId + 1

def removeFromFreeList (h : PageHeap) (s : SpanId) : Option PageHeap := do
  let x ← h.spans s
  let idx := x.numPages
  if maxPages < idx then some h
  else
    let (spans, head) ← unlink h.spans (h.freeLists idx) s
    let x ← spans s
    some { h with
      spans := Function.update spans s (some { x with isFree := false })
      freeLists := Function.update h.freeLists idx head }

def insert (h : PageHeap) (numPages : Nat) (s : SpanId) : Option PageHeap := do
  if maxPages < numPages then some h
  else
    let x ← h.spans s
    let x := { x with isFree := true, next := none, prev := none }
    let h := h.set s x
    match h.freeLists numPages with
    | none => some { h with freeLists := Function.update h.freeLists numPages (some s) }
    | some head =>
        match ← insertWalk h.spans x.start h.walkFuel none (some head) with
        | (prev, some curr) =>
            let h := h.set s { x with next := some curr, prev := prev }
            let y ← h.spans curr
            let h := h.set curr { y with prev := some s }
            match prev with
            | some p =>
                let z ← h.spans p
                some (h.set p { z with next := some s })
            | none => some { h with freeLists := Function.update h.freeLists numPages (some s) }
        | (prev, none) =>
            let p ← prev
            let z ← h.spans p
            let h := h.set p { z with next := some s }
            some (h.set s { x with prev := some p })

/-! #### Coalescing and splitting -/

def coalesceLeft (h : PageHeap) (s : SpanId) : Option PageHeap := do
  let x ← h.spans s
  if 0 < x.start then
    match h.lookup (x.start - 1) with
    | none => some h
    | some left =>
        let l ← h.spans left
        if l.isFree ∧ left ≠ s then
          let h ← h.removeFromFreeList left
          let h ← h.unregisterSpan left
          let h ← h.unregisterSpan s
          let l ← h.spans left
          let x ← h.spans s
          let h := h.set s { x with start := l.start, numPages := x.numPages + l.numPages }
          let h ← h.registerSpan s
          h.delete left
        else some h
  else some h

def coalesceRight (h : PageHeap) (s : SpanId) : Option PageHeap := do
  let x ← h.spans s
  match h.lookup (x.start + x.numPages) with
  | none => some h
  | some right =>
      let r ← h.spans right
      if r.isFree ∧ right ≠ s then
        let h ← h.removeFromFreeList right
        let h ← h.unregisterSpan right
        let h ← h.unregisterSpan s
        let r ← h.spans right
        let x ← h.spans s
        let h := h.set s { x with numPages := x.numPages + r.numPages }
        let h ← h.registerSpan s
        h.delete right
      else some h

def coalesce (h : PageHeap) (s : SpanId) : Option PageHeap := do
  let h ← h.coalesceLeft s
  h.coalesceRight s

/-- Keeps the first `numPages` in `s`; the rest becomes a new free span. -/
def split (h : PageHeap) (s : SpanId) (numPages : Nat) : Option PageHeap := do
  let x ← h.spans s
  let rest : Span :=
    { start := x.start + numPages, numPages := x.numPages - numPages, isFree := true }
  let (remainder, h) := h.new rest
  let h ← h.unregisterSpan s
  let x ← h.spans s
  let h := h.set s { x with numPages := numPages }
  let h ← h.registerSpan s
  let h ← h.registerSpan remainder
  if rest.numPages ≤ maxPages then h.insert rest.numPages remainder else some h

/-! #### The public operations -/

/-- The walk over one free list in `allocate_span`: the span whose size is closest to `size`. -/
def searchList (spans : SpanId → Option Span) (size : Nat) :
    (fuel : Nat) → (curr best : Option SpanId) → (bestDiff : Nat) → Option (Option SpanId)
  | 0, _, _, _ => none
  | _ + 1, none, best, _ => some best
  | fuel + 1, some c, best, bestDiff => do
      let y ← spans c
      let diff := if size < y.size then y.size - size else size - y.size
      let best' := if diff < bestDiff then some c else best
      let bestDiff' := if diff < bestDiff then diff else bestDiff
      if diff = 0 then some best' else searchList spans size fuel y.next best' bestDiff'

/-- `UINT32_MAX`, the initial `best_diff`. -/
def uint32Max : Nat := 2 ^ 32 - 1

/-- The loop over the free lists in `allocate_span`, from list `i` on for `n` lists. -/
def searchLists (h : PageHeap) (size : Nat) : (n i : Nat) → Option (Option SpanId)
  | 0, _ => some none
  | n + 1, i =>
      match h.freeLists i with
      | none => searchLists h size n (i + 1)
      | some head => do
          match ← searchList h.spans size h.walkFuel (some head) none uint32Max with
          | some best => some (some best)
          | none => searchLists h size n (i + 1)

def allocateSpan (k : Kernel) (h : PageHeap) (numPages size : Nat) :
    Option (Option SpanId × PageHeap) := do
  if numPages = 0 ∨ maxPages < numPages then some (none, h)
  else
    match ← h.searchLists size (maxPages + 1 - numPages) numPages with
    | some best =>
        let h ← h.removeFromFreeList best
        let x ← h.spans best
        let h := h.set best { x with isFree := false, size := size }
        if numPages < x.numPages then
          let h ← h.split best numPages
          some (some best, h)
        else some (some best, h)
    | none =>
        let (raw, os) := h.os.mmap k numPages
        let h := { h with os := os }
        match raw with
        | none => some (none, h)
        | some start =>
            let (s, h) := h.new { start := start, numPages := numPages, size := size }
            let h ← h.registerSpan s
            some (some s, h)

/-- The loop of `return_span` that carves `MAX_PAGES` chunks off the front. -/
def carve : (fuel : Nat) → (h : PageHeap) → (s : SpanId) → Option PageHeap
  | 0, _, _ => none
  | fuel + 1, h, s => do
      let x ← h.spans s
      if maxPages < x.numPages then
        let (front, h) := h.new { start := x.start, numPages := maxPages, isFree := true }
        let h ← h.unregisterSpan s
        let h := h.set s { x with start := x.start + maxPages, numPages := x.numPages - maxPages }
        let h ← h.registerSpan s
        let h ← h.registerSpan front
        let h ← h.insert maxPages front
        carve fuel h s
      else some h

def returnSpan (h : PageHeap) (span : Option SpanId) : Option PageHeap :=
  match span with
  | none => some h
  | some s => do
      let x ← h.spans s
      let h := h.set s { x with isFree := true, size := 0 }
      let h ← h.coalesce s
      let x ← h.spans s
      -- every round takes `MAX_PAGES` pages off the span
      let h ← h.carve (x.numPages + 1) s
      let x ← h.spans s
      h.insert x.numPages s

/-- `deallocate_span`; `munmap` succeeds. -/
def deallocateSpan (h : PageHeap) (span : Option SpanId) : Option (Bool × PageHeap) :=
  match span with
  | none => some (false, h)
  | some s => do
      let x ← h.spans s
      let h ← if x.isFree then h.removeFromFreeList s else some h
      let h ← h.unregisterSpan s
      let x ← h.spans s
      let h := { h with os := h.os.munmap x.start x.numPages }
      let h ← h.delete s
      some (true, h)

/-- The walk over one free list in the destructor. -/
def destroyList : (fuel : Nat) → (h : PageHeap) → (curr : Option SpanId) → Option PageHeap
  | 0, _, _ => none
  | _ + 1, h, none => some h
  | fuel + 1, h, some c => do
      let x ← h.spans c
      let h := { h with os := h.os.munmap x.start x.numPages }
      let h ← h.delete c
      destroyList fuel h x.next

/-- The loop over the free lists in the destructor, from list `i` on for `n` lists. -/
def destroyLists : (n i : Nat) → (h : PageHeap) → Option PageHeap
  | 0, _, h => some h
  | n + 1, i, h => do
      let h ← destroyList h.walkFuel h (h.freeLists i)
      destroyLists n (i + 1) { h with freeLists := Function.update h.freeLists i none }

/-- `~PageHeap`. -/
def destroy (h : PageHeap) : Option PageHeap := do
  let h ← destroyLists (maxPages + 1) 0 h
  some { h with pageMap := fun _ => none }

end PageHeap

end TieredAllocator
