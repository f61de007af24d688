import TieredAllocator.PageHeap.Runs
import TieredAllocator.CentralFreeList.Deallocate

/-!
# Central free list — runs

The central free lists as a system whose steps are their public calls and the writes of the
clients.  The ghost `out` keeps, per class, the objects handed out and not yet given back; only
these may be given back or written to.  Each call is defined and keeps the invariant
(`Central.step_spec`), so it holds after each run.

The packed list of each span is read off it: it is exact (`packedLists_exact`).
-/

namespace TieredAllocator
open Lib

structure Central where
  backend : Backend
  /-- per class, the objects handed out and not yet given back -/
  out : Nat → Multiset Nat

inductive CentralCall where
  | allocate (k : Kernel) (c : Nat)
  | deallocate (c ptr : Nat)
  | allocateBatch (k : Kernel) (c count : Nat)
  | deallocateBatch (c : Nat) (ptrs : List Nat)
  /-- a client stores `v` in `len` bytes of an object it holds -/
  | write (c ptr offset len v : Nat)

namespace CentralCall

/-- Only objects that are out are given back, each once, or written to. -/
def Allowed (u : Central) : CentralCall → Prop
  | .allocate _ _ => True
  | .deallocate c ptr => ptr ∈ u.out c
  | .allocateBatch _ _ _ => True
  | .deallocateBatch c ptrs => (ptrs : Multiset Nat) ≤ u.out c
  | .write c ptr offset len _ =>
      ptr ∈ u.out c ∧ offset + len ≤ (u.backend.freeList c).size

instance (u : Central) : (a : CentralCall) → Decidable (a.Allowed u)
  | .allocate _ _ => inferInstanceAs (Decidable True)
  | .deallocate c ptr => inferInstanceAs (Decidable (ptr ∈ u.out c))
  | .allocateBatch _ _ _ => inferInstanceAs (Decidable True)
  | .deallocateBatch c ptrs => inferInstanceAs (Decidable ((ptrs : Multiset Nat) ≤ u.out c))
  | .write c ptr offset len _ => inferInstanceAs
      (Decidable (ptr ∈ u.out c ∧ offset + len ≤ (u.backend.freeList c).size))

def step (u : Central) : CentralCall → Option Central
  | .allocate k c => (u.backend.allocate k c).map fun r => ⟨r.2, Backend.gain u.out c r.1⟩
  | .deallocate c ptr => (u.backend.deallocate c ptr).map fun b => ⟨b, Backend.lose u.out c ptr⟩
  | .allocateBatch k c count =>
      (Backend.allocateBatch k c count u.backend).map fun r => ⟨r.2, Backend.gainAll u.out c r.1⟩
  | .deallocateBatch c ptrs =>
      (Backend.deallocateBatch c ptrs u.backend).map fun b => ⟨b, Backend.loseAll u.out c ptrs⟩
  | .write _ ptr offset len v =>
      some ⟨{ u.backend with mem := u.backend.mem.store (ptr + offset) len v }, u.out⟩

/-- The call is not one of the batches. -/
def Single : CentralCall → Prop
  | .allocateBatch _ _ _ | .deallocateBatch _ _ => False
  | _ => True

instance : (a : CentralCall) → Decidable a.Single
  | .allocate _ _ | .deallocate _ _ | .write _ _ _ _ _ => inferInstanceAs (Decidable True)
  | .allocateBatch _ _ _ | .deallocateBatch _ _ => inferInstanceAs (Decidable False)

end CentralCall

namespace Central

/-- Every call of the central free lists. -/
def calls : System Central CentralCall where
  allowed u a := a.Allowed u
  step u a := a.step u

/-- The same without the batches. -/
def singles : System Central CentralCall where
  allowed u a := a.Single ∧ a.Allowed u
  step u a := a.step u

instance (u : Central) (a : CentralCall) : Decidable (calls.allowed u a) :=
  inferInstanceAs (Decidable (a.Allowed u))

instance (u : Central) (a : CentralCall) : Decidable (singles.allowed u a) :=
  inferInstanceAs (Decidable (a.Single ∧ a.Allowed u))

/-- Empty lists for the classes of a table, over an empty page heap. -/
def init (mem : Memory) (foreign : Nat → Bool) (table : Nat → SizeClassInfo) : Central where
  backend := Backend.init mem (PageHeap.init foreign) table
  out _ := 0

def Inv (table : Nat → SizeClassInfo) (u : Central) : Prop :=
  ∃ L S, Backend.Inv table u.backend u.out L S

variable {table : Nat → SizeClassInfo} {u u' : Central} {a : CentralCall} {as : List CentralCall}
  {c : Nat} {s : SpanId} {mem : Memory} {foreign : Nat → Bool}

theorem inv_init : Inv table (init mem foreign table) :=
  ⟨_, _, Backend.Inv.init mem foreign table⟩

/-- Each call is defined and keeps the invariant. -/
theorem step_spec (hok : ∀ c, ClassOk (table c)) (hi : Inv table u) (ha : a.Allowed u) :
    ∃ u', a.step u = some u' ∧ Inv table u' := by
  obtain ⟨L, S, hi⟩ := hi
  cases a with
  | allocate k c =>
      obtain ⟨p, b', L', S', hres, hi', -⟩ := Backend.allocate_spec hi (hok c) k
      exact ⟨_, by rw [CentralCall.step, hres]; rfl, L', S', hi'⟩
  | deallocate c ptr =>
      obtain ⟨-, -, b', L', S', -, -, -, hres, hi', -⟩ := Backend.deallocate_spec hi ha
      exact ⟨_, by rw [CentralCall.step, hres]; rfl, L', S', hi'⟩
  | allocateBatch k c count =>
      obtain ⟨ps, b', L', S', hres, hi', -⟩ := Backend.allocateBatch_spec (hok c) k count hi
      exact ⟨_, by rw [CentralCall.step, hres]; rfl, L', S', hi'⟩
  | deallocateBatch c ptrs =>
      obtain ⟨b', L', S', hres, hi'⟩ := Backend.deallocateBatch_spec ptrs hi ha
      exact ⟨_, by rw [CentralCall.step, hres]; rfl, L', S', hi'⟩
  | write c ptr offset len v =>
      obtain ⟨hp, hlen⟩ := ha
      obtain ⟨s, x, i, hs, hx, hix, rfl⟩ := hi.handed c ptr hp
      have hz := (hi.serves c s x hs hx).size_eq
      rw [(hi.config c).1, ← hz] at hlen
      exact ⟨_, rfl, L, S, hi.clientWrite hs hx hix hp (Nat.le_add_right _ _) (by omega) v⟩

theorem step_inv (hok : ∀ c, ClassOk (table c)) (hi : Inv table u) (ha : a.Allowed u)
    (hstep : a.step u = some u') : Inv table u' := by
  obtain ⟨v, hv, hi'⟩ := step_spec hok hi ha
  rwa [Option.some.inj (hv.symm.trans hstep)] at hi'

/-! ### The packed lists -/

end Central

/-- Decoding the packed list of `x` returns `items`, and these are exactly the carved objects
that are not out. -/
structure PackedListExact (m : Memory) (x : Span) (o : Multiset Nat) (nodes items : List Nat) :
    Prop where
  chain : Chain (nodeNext m x.base x.size) invalidIndex x.freelistHead nodes
  room : ∀ i ∈ nodes, PackedNode.count m (x.addr i) ≤ packCapacity x.size
  decoded : decode (nodeNext m x.base x.size) (nodePacked m x.base x.size) invalidIndex
    (x.totalObjects + 1) x.freelistHead = some items
  nodup : items.Nodup
  length : items.length = x.numFreeObjects
  carved : x.nextUninitialized ≤ x.totalObjects
  below : ∀ i ∈ items, i < x.nextUninitialized
  /-- an object that is out is carved -/
  out : ∀ i < x.totalObjects, x.addr i ∈ o → i < x.nextUninitialized
  /-- a carved object is on the list or out, not both -/
  partition : ∀ i < x.nextUninitialized, Xor (i ∈ items) (x.addr i ∈ o)

theorem Span.Serves.packedListExact {info : SizeClassInfo} {m : Memory} {o : Multiset Nat}
    {x : Span} (hs : x.Serves info m o) : ∃ nodes items, PackedListExact m x o nodes items := by
  obtain ⟨nodes, hex⟩ := hs.exact
  refine ⟨nodes, _, hex.list.chain, hex.list.room, hex.decode_eq, hex.nodup, hex.count.symm,
    hex.carved, fun i hi => ((hex.free i).mp hi).1, fun i hi ho => hex.out i ⟨hi, ho⟩,
    fun i hi => ?_⟩
  have hfree := hex.free i
  have hit : i < x.totalObjects := lt_of_lt_of_le hi hex.carved
  by_cases ho : x.addr i ∈ o
  · exact .inr ⟨ho, fun h => (hfree.mp h).2 ⟨hit, ho⟩⟩
  · exact .inl ⟨hfree.mpr ⟨hi, fun h => ho h.2⟩, ho⟩

namespace Central

/-- **The packed free lists.**  After each run of the calls, over any table of classes the lists
can serve, the spans of each class form a list, the packed list of each of them is exact, and
what is out of the class are objects of these spans. -/
theorem packedLists_exact (hok : ∀ c, ClassOk (table c))
    (r : calls.Run (init mem foreign table) as u) (c : Nat) :
    ∃ l, SpanList u.backend.pageHeap.spans (u.backend.freeList c).spanList l ∧
      (∀ s ∈ l, ∃ x nodes items, u.backend.pageHeap.spans s = some x ∧
        x.size = (table c).size ∧ x.totalObjects = (table c).pages * pageSize / (table c).size ∧
        PackedListExact u.backend.mem x (u.out c) nodes items) ∧
      ∀ p ∈ u.out c, ∃ s ∈ l, ∃ x i, u.backend.pageHeap.spans s = some x ∧
        i < x.totalObjects ∧ p = x.addr i := by
  obtain ⟨L, S, hi⟩ := r.invariant (I := Inv table) (fun hi ha h => step_inv hok hi ha h) inv_init
  refine ⟨S c, hi.list c, fun s hs => ?_, fun p hp => ?_⟩
  · obtain ⟨x, hx, hsx⟩ := hi.used hs
    obtain ⟨nodes, items, hex⟩ := hsx.packedListExact
    refine ⟨x, nodes, items, hx, hsx.size_eq, ?_, hex⟩
    rw [hsx.total, hsx.pages_eq, hsx.size_eq]
  · obtain ⟨s, x, i, hs, hx, hix, hp⟩ := hi.handed c p hp
    exact ⟨s, hs, x, i, hx, hix, hp⟩

/-! ### A run -/

/-- A batch carves two pages in two steps, two of its objects come back, and one of them is handed
out again; the other class takes part. -/
def sampleCalls : List CentralCall :=
  let k := PageHeap.kernelOf [16, 40]
  [.allocateBatch k 21 5, .allocate k 1, .write 21 67840 8 1000 77,
    .deallocateBatch 21 [67840, 65536], .allocate k 21, .deallocate 1 167928]

theorem packedLists_exact_sample :
    ∃ u, calls.Run (init Memory.zero (fun _ => false) sizeClass) sampleCalls u ∧
      ∃ l, SpanList u.backend.pageHeap.spans (u.backend.freeList 21).spanList l ∧
        ∀ s ∈ l, ∃ x nodes items, u.backend.pageHeap.spans s = some x ∧
          PackedListExact u.backend.mem x (u.out 21) nodes items := by
  have h : (calls.replay (init Memory.zero (fun _ => false) sizeClass) sampleCalls).isSome =
      true := by decide +kernel
  obtain ⟨u, hu⟩ := Option.isSome_iff_exists.mp h
  obtain ⟨l, hl, hex, -⟩ := packedLists_exact sizeClass_classOk (System.Run.of_replay hu) 21
  refine ⟨u, System.Run.of_replay hu, l, hl, fun s hs => ?_⟩
  obtain ⟨x, nodes, items, hx, -, -, hexact⟩ := hex s hs
  exact ⟨x, nodes, items, hx, hexact⟩

end Central

end TieredAllocator
