import Mathlib.Algebra.BigOperators.Pi
import TieredAllocator.Allocator.Ownership
import TieredAllocator.CentralFreeList.Deallocate

/-!
# Allocator — the invariant

`w.Inv γ` is the invariant of the allocator and its threads, of which `γ` are the ghosts.  What
the central lists have handed out (`World.handed`) is the sum of the live blocks, of what the
calls hold, of the slabs and of the transfer caches; the invariant of the central lists holds for
exactly this.  The slabs lie in pages the page heap does not own, and what a call has looked up
of an object it holds is still so.

Each action keeps the invariant (`Inv.perform`), and so do the steps of the clients, so the
machine is `Sound`: the invariant holds after each run of any number of threads
(`ok_of_run`).
-/

namespace TieredAllocator
open Lib

/-! ### Sums of objects -/

theorem gain_eq (out : Nat → Multiset Nat) (c : Nat) {p : Nat} (hp : p ≠ 0) :
    Backend.gain out c p = inClass c {p} + out := by
  funext d
  rw [Backend.gain, if_neg hp]
  by_cases hd : d = c
  · subst hd; simp [inClass]
  · simp [inClass, hd]

theorem lose_eq {out : Nat → Multiset Nat} {c p : Nat} (hp : p ∈ out c) :
    inClass c {p} + Backend.lose out c p = out := by
  funext d
  by_cases hd : d = c
  · subst hd
    simp [inClass, Backend.lose, Multiset.cons_erase hp]
  · simp [inClass, Backend.lose, hd]

/-- The live blocks, by class. -/
def liveObjects (live : List Block) : Nat → Multiset Nat :=
  (live.map fun b => inClass b.sc {b.ptr}).sum

theorem liveObjects_cons (b : Block) (live : List Block) :
    liveObjects (b :: live) = inClass b.sc {b.ptr} + liveObjects live := List.sum_cons

theorem liveObjects_erase {b : Block} {live : List Block} (hb : b ∈ live) :
    liveObjects live = inClass b.sc {b.ptr} + liveObjects (live.erase b) :=
  (List.sum_map_erase (fun b : Block => inClass b.sc {b.ptr}) hb).symm

theorem mem_liveObjects {b : Block} {live : List Block} (hb : b ∈ live) :
    b.ptr ∈ liveObjects live b.sc := by
  rw [liveObjects_erase hb]
  simp [inClass]

variable {ι : Type} [Fintype ι]

/-- The objects a call holds, if there is one. -/
def callObjects (g : Option Held) : Nat → Multiset Nat := g.elim 0 Held.objs

/-- The objects the calls hold, by class. -/
def heldObjects (γ : ι → Option Held) : Nat → Multiset Nat := ∑ t, callObjects (γ t)

/-- One call changes what it holds. -/
theorem heldObjects_update [DecidableEq ι] (γ : ι → Option Held) (t : ι) (g : Option Held) :
    heldObjects (Function.update γ t g) + callObjects (γ t) = heldObjects γ + callObjects g := by
  have ht := Finset.mem_univ t
  have hrest : ∑ x ∈ Finset.univ.erase t, callObjects (Function.update γ t g x) =
      ∑ x ∈ Finset.univ.erase t, callObjects (γ x) :=
    Finset.sum_congr rfl fun x hx => by rw [Function.update_of_ne (Finset.ne_of_mem_erase hx)]
  rw [heldObjects, heldObjects, ← Finset.add_sum_erase _ _ ht, ← Finset.add_sum_erase _ _ ht, hrest,
    Function.update_self]
  abel

theorem callObjects_le (γ : ι → Option Held) (t : ι) : callObjects (γ t) ≤ heldObjects γ := by
  classical
  rw [heldObjects, ← Finset.add_sum_erase _ _ (Finset.mem_univ t)]
  exact le_self_add

def slabObjects (a : Allocator) : Nat → Multiset Nat :=
  Slabs.objects a.backend.mem a.perCpuCaches a.slabCount

def transferObjects (a : Allocator) : Nat → Multiset Nat := fun c => (a.transferCaches c).slots

theorem transferObjects_setCache (a : Allocator) (c : Nat) (tc : TransferCache) :
    transferObjects (a.setCache c tc) + inClass c (a.transferCaches c).slots =
      transferObjects a + inClass c tc.slots := by
  funext d
  by_cases hd : d = c
  · subst hd
    simp [transferObjects, Allocator.setCache, inClass, add_comm]
  · simp [transferObjects, Allocator.setCache, inClass, hd]

theorem transferObjects_removeRange (a : Allocator) (c n : Nat) :
    inClass c ((a.transferCaches c).removeRange n).1 +
      transferObjects (a.setCache c ((a.transferCaches c).removeRange n).2) =
        transferObjects a := by
  have hmove := transferObjects_setCache a c ((a.transferCaches c).removeRange n).2
  rw [((a.transferCaches c).removeRange_spec n).2, inClass_add, ← add_assoc] at hmove
  rw [add_comm]
  exact add_right_cancel hmove

theorem transferObjects_insertRange (a : Allocator) (c : Nat) (batch : List Nat) :
    transferObjects (a.setCache c ((a.transferCaches c).insertRange batch).2) =
      inClass c (batch.take ((a.transferCaches c).insertRange batch).1) + transferObjects a := by
  have hmove := transferObjects_setCache a c ((a.transferCaches c).insertRange batch).2
  rw [((a.transferCaches c).insertRange_spec batch).2, inClass_add, ← add_assoc] at hmove
  rw [add_right_cancel hmove, add_comm]

namespace World

/-- What the central lists have handed out. -/
def handed (w : World) (γ : ι → Option Held) : Nat → Multiset Nat :=
  liveObjects w.live + heldObjects γ + slabObjects w.allocator + transferObjects w.allocator

/-- What the call has looked up holds. -/
def Routed (h : PageHeap) (g : Held) : Prop :=
  ∀ p s, g.route p = some s → (∃ c, p ∈ g.objs c) ∧ h.spanFor p = some s

structure Inv (w : World) (γ : ι → Option Held) : Prop where
  backend : ∃ L S, Backend.Inv sizeClass w.allocator.backend (w.handed γ) L S
  bounded : Slabs.Bounded w.allocator.backend.mem w.allocator.perCpuCaches w.allocator.slabCount
  /-- the slabs lie in pages that others have mapped -/
  region : ∀ a, w.allocator.perCpuCaches ≤ a →
    a < w.allocator.perCpuCaches + w.allocator.slabCount * slabStrideBytes →
    w.allocator.backend.pageHeap.os.foreign (a / pageSize) = true
  /-- the page heap owns no page that others have mapped -/
  sound : ∀ q, w.allocator.backend.pageHeap.os.owned q = true →
    w.allocator.backend.pageHeap.os.foreign q = false
  routed : ∀ t g, γ t = some g → Routed w.allocator.backend.pageHeap g

end World

/-! ### What a call has looked up -/

namespace World.Routed

variable {h h' : PageHeap} {g : Held} {c p : Nat} {ps : Multiset Nat} {s : SpanId}

theorem congr (hr : Routed h g) (hh : ∀ c p, p ∈ g.objs c → h'.spanFor p = h.spanFor p) :
    Routed h' g := fun p s hs => by
  obtain ⟨⟨c, hp⟩, hfor⟩ := hr p s hs
  exact ⟨⟨c, hp⟩, (hh c p hp).trans hfor⟩

theorem empty : Routed h {} := fun _ _ hs => by cases hs

theorem gain (hr : Routed h g) (c : Nat) (ps : Multiset Nat) : Routed h (g.gain c ps) :=
  fun p s hs => by
    obtain ⟨⟨d, hp⟩, hfor⟩ := hr p s hs
    exact ⟨⟨d, Multiset.mem_add.mpr (.inr hp)⟩, hfor⟩

theorem lose (hr : Routed h g) (c : Nat) (ps : Multiset Nat) : Routed h (g.lose c ps) :=
  fun p s hs => by
    by_cases hps : p ∈ ps
    · simp [Held.lose, hps] at hs
    · obtain ⟨⟨d, hp⟩, hfor⟩ := hr p s (by simpa [Held.lose, hps] using hs)
      refine ⟨⟨d, ?_⟩, hfor⟩
      show p ∈ g.objs d - inClass c ps d
      by_cases hd : d = c
      · subst hd
        rw [inClass, Pi.single_eq_same, ← Multiset.count_pos, Multiset.count_sub,
          Multiset.count_eq_zero_of_notMem hps]
        simpa [Multiset.count_pos] using hp
      · rw [inClass, Pi.single_eq_of_ne hd]
        simpa using hp

theorem look (hr : Routed h g) (hp : p ∈ g.objs c) :
    Routed h { g with route := Function.update g.route p (h.spanFor p) } := fun q s hs => by
  by_cases hq : q = p
  · subst hq
    exact ⟨⟨c, hp⟩, by simpa using hs⟩
  · exact hr q s (by simpa [hq] using hs)

end World.Routed

/-- Only the classes of the table have spans. -/
theorem Backend.Inv.class_lt {b : Backend} {out : Nat → Multiset Nat} {L S : Nat → List SpanId}
    {c : Nat} {s : SpanId} (hb : Backend.Inv sizeClass b out L S) (hs : s ∈ S c) :
    1 ≤ c ∧ c < numSizeClasses := by
  obtain ⟨x, -, hsx⟩ := hb.used hs
  have hz := hsx.size_eq ▸ hsx.roomy
  constructor
  · by_contra h0
    obtain rfl : c = 0 := by omega
    exact absurd hz (by decide)
  · by_contra hge
    rw [sizeClass, List.getD_eq_getElem?_getD, List.getElem?_eq_none (not_lt.mp hge)] at hz
    exact absurd hz (by decide)

namespace World.Inv

variable {w : World} {γ : ι → Option Held} {t : ι} {g : Held} {c p : Nat} {e : Env}

/-! ### What is handed out -/

/-- What a call holds is handed out. -/
theorem mem_handed (hg : γ t = some g) (hp : p ∈ g.objs c) : p ∈ w.handed γ c := by
  have hle := callObjects_le γ t c
  rw [hg] at hle
  simp only [handed, Pi.add_apply, Multiset.mem_add]
  exact .inl (.inl (.inr (Multiset.mem_of_le hle hp)))

theorem live_handed {b : Block} (hb : b ∈ w.live) : b.ptr ∈ w.handed γ b.sc := by
  simp only [handed, Pi.add_apply, Multiset.mem_add]
  exact .inl (.inl (.inl (mem_liveObjects hb)))

/-- What is handed out belongs to a class with objects, and is an address of 64 bits, not 0. -/
theorem range (hi : w.Inv γ) (hp : p ∈ w.handed γ c) :
    1 ≤ c ∧ c < numSizeClasses ∧ p ≠ 0 ∧ p < 2 ^ 64 := by
  obtain ⟨L, S, hb⟩ := hi.backend
  have hne := hb.ne_zero hp
  obtain ⟨s, x, i, hs, hx, hix, rfl⟩ := hb.handed c p hp
  have hsx := hb.serves c s x hs hx
  have hin := hsx.inside hix
  have hbound := hb.heap.bounds s x hx
  obtain ⟨h₁, h₂⟩ := hb.class_lt hs
  refine ⟨h₁, h₂, hne, ?_⟩
  have hlim := Nat.mul_le_mul_right pageSize hbound.2.2
  rw [Nat.add_mul] at hlim
  have hpage : Os.pageLimit * pageSize = 2 ^ 64 := by decide
  have hroomy := hsx.roomy
  simp only [Span.base] at hin
  omega

/-! ### Steps outside the central lists -/

/-- A step that leaves the central lists and the page heap, and of the memory the pages they own,
and that moves objects only among the other tiers. -/
theorem move {γ' : ι → Option Held} {w' : World}
    (hi : w.Inv γ) {m : Memory}
    (hback : w'.allocator.backend = { w.allocator.backend with mem := m })
    (hbase : w'.allocator.perCpuCaches = w.allocator.perCpuCaches)
    (hcount : w'.allocator.slabCount = w.allocator.slabCount)
    (hmem : ∀ a, w.allocator.backend.pageHeap.os.owned (a / pageSize) = true →
      m.byte a = w.allocator.backend.mem.byte a)
    (hbounded : Slabs.Bounded m w.allocator.perCpuCaches w.allocator.slabCount)
    (hhanded : w'.handed γ' = w.handed γ)
    (hrouted : ∀ t g, γ' t = some g → Routed w.allocator.backend.pageHeap g) : w'.Inv γ' := by
  obtain ⟨L, S, hb⟩ := hi.backend
  refine ⟨⟨L, S, ?_⟩, ?_, ?_, ?_, ?_⟩
  · rw [hback, hhanded]
    exact hb.remem hmem
  · rw [hback, hbase, hcount]
    exact hbounded
  · rw [hback, hbase, hcount]
    exact hi.region
  · rw [hback]
    exact hi.sound
  · rw [hback]
    exact hrouted

/-- Stores into a cell of the slabs are outside the pages the page heap owns. -/
theorem cell_mem (hi : w.Inv γ) {cpu : Nat} {m' : Memory} (hcpu : cpu < w.allocator.slabCount)
    (hc : c < numSizeClasses)
    (hw : Memory.Wrote (Slabs.Cell w.allocator.perCpuCaches cpu c) w.allocator.backend.mem m') :
    ∀ a, w.allocator.backend.pageHeap.os.owned (a / pageSize) = true →
      m'.byte a = w.allocator.backend.mem.byte a := by
  intro a ha
  refine hw.byte_eq fun b k hcell hin => ?_
  obtain ⟨h₁, h₂⟩ := hcell.region hcpu hc
  have := hi.region a (by omega) (by omega)
  rw [hi.sound _ ha] at this
  cases this

/-- Stores into objects the page heap owns are outside the slabs. -/
theorem region_byte (hi : w.Inv γ) {b : Backend} {out : Nat → Multiset Nat}
    {L S : Nat → List SpanId} {o : Multiset Nat} {m' : Memory}
    (hb : Backend.Inv sizeClass b out L S)
    (hforeign : b.pageHeap.os.foreign = w.allocator.backend.pageHeap.os.foreign)
    (hsound : ∀ q, b.pageHeap.os.owned q = true → b.pageHeap.os.foreign q = false)
    (hw : Memory.Wrote (Backend.FreeObject b S o c) w.allocator.backend.mem m') {a : Nat}
    (h₁ : w.allocator.perCpuCaches ≤ a)
    (h₂ : a < w.allocator.perCpuCaches + w.allocator.slabCount * slabStrideBytes) :
    m'.byte a = w.allocator.backend.mem.byte a := by
  refine hw.byte_eq fun d k hfree hin => ?_
  obtain ⟨s, x, hs, hx, i, hix, -, h₃, h₄⟩ := hfree
  have howned := hb.owned_of_addr hs hx hix (a := a) (by omega) (by omega)
  have := hi.region a h₁ h₂
  rw [← hforeign, hsound _ howned] at this
  cases this

/-- Stores into objects the page heap owns leave the slabs. -/
theorem slabs_congr (hi : w.Inv γ) {b : Backend} {out : Nat → Multiset Nat}
    {L S : Nat → List SpanId} {o : Multiset Nat} {m' : Memory}
    (hb : Backend.Inv sizeClass b out L S)
    (hforeign : b.pageHeap.os.foreign = w.allocator.backend.pageHeap.os.foreign)
    (hsound : ∀ q, b.pageHeap.os.owned q = true → b.pageHeap.os.foreign q = false)
    (hw : Memory.Wrote (Backend.FreeObject b S o c) w.allocator.backend.mem m') :
    Slabs.Bounded m' w.allocator.perCpuCaches w.allocator.slabCount ∧
      Slabs.objects m' w.allocator.perCpuCaches w.allocator.slabCount =
        slabObjects w.allocator :=
  Slabs.objects_congr hi.bounded fun _ => hi.region_byte hb hforeign hsound hw

/-- A class that serves a live block has objects large enough for it. -/
theorem live_size (hi : w.Inv γ) {b : Block} (hmem : b ∈ w.live) :
    b.size ≤ (sizeClass b.sc).size := by
  have hn : b.size ≤ maxSize := by
    by_contra hgt
    have h0 : b.sc = 0 := by rw [Block.sc, roundSizeClass_of_gt (not_le.mp hgt)]
    have := (hi.range (live_handed hmem)).1
    omega
  exact (roundSizeClass_spec hn).2.2.2.1

/-- A live block lies inside one object of its class. -/
theorem live_object (hi : w.Inv γ) {L S : Nat → List SpanId}
    (hb : Backend.Inv sizeClass w.allocator.backend (w.handed γ) L S) {b : Block}
    (hmem : b ∈ w.live) : ∃ s x i, s ∈ S b.sc ∧ w.allocator.backend.pageHeap.spans s = some x ∧
      i < x.totalObjects ∧ b.ptr = x.addr i ∧ x.size = (sizeClass b.sc).size ∧ b.size ≤ x.size := by
  obtain ⟨s, x, i, hs, hx, hix, hptr⟩ := hb.handed _ _ (live_handed hmem)
  have hz := (hb.serves _ s x hs hx).size_eq
  exact ⟨s, x, i, hs, hx, hix, hptr, hz, hz ▸ hi.live_size hmem⟩

theorem client (hi : w.Inv γ) {x : ClientWrite} {w' : World} (h : w.client x = some w') :
    w'.Inv γ := by
  rw [World.client] at h
  split at h
  · rename_i hx
    obtain ⟨hmem, hlen⟩ := hx
    obtain rfl := Option.some.inj h
    obtain ⟨L, S, hb⟩ := hi.backend
    obtain ⟨s, y, i, hs, hy, hiy, hptr, -, hsize⟩ := hi.live_object hb hmem
    have hout : y.addr i ∈ w.handed γ x.block.sc := hptr ▸ live_handed hmem
    have hb' := hb.clientWrite hs hy hiy hout (a := x.block.ptr + x.offset) (k := x.len)
      (by omega) (by omega) x.value
    set m' := w.allocator.backend.mem.store (x.block.ptr + x.offset) x.len x.value
    -- the object lies in a page the page heap owns, the slabs do not
    obtain ⟨hbounded, hslabs⟩ := Slabs.objects_congr hi.bounded
      fun a h₁ h₂ => show m'.byte a = _ from Memory.store_byte_of_not_mem fun hin => by
        have howned := hb.owned_of_addr hs hy hiy (a := a) (by omega) (by omega)
        have := hi.region a h₁ h₂
        rw [hi.sound _ howned] at this
        cases this
    refine ⟨⟨L, S, ?_⟩, hbounded, hi.region, hi.sound, hi.routed⟩
    have hhanded : World.handed ⟨w.allocator.setMem m', w.live⟩ γ = w.handed γ := by
      rw [handed, handed, slabObjects, slabObjects, ← hslabs]
      rfl
    rw [hhanded]
    exact hb'
  · cases h

/-! ### The actions -/

section Actions
variable [DecidableEq ι]

/-- The ghost of one thread changes. -/
theorem routed_update (hi : w.Inv γ) {f : Option Held}
    (hg : ∀ g, f = some g → Routed w.allocator.backend.pageHeap g) :
    ∀ t' g, Function.update γ t f t' = some g → Routed w.allocator.backend.pageHeap g := by
  intro t' g h
  by_cases ht : t' = t
  · subst ht
    rw [Function.update_self] at h
    exact hg g h
  · rw [Function.update_of_ne ht] at h
    exact hi.routed t' g h

/-- What is added to a call is added to the sum. -/
theorem held_gain (hg : γ t = some g) {f : Held} {d : Nat → Multiset Nat}
    (h : f.objs = d + g.objs) :
    heldObjects (Function.update γ t (some f)) = d + heldObjects γ := by
  have hup := heldObjects_update γ t (some f)
  rw [hg] at hup
  simp only [callObjects, Option.elim, h] at hup
  refine add_right_cancel (b := g.objs) (hup.trans ?_)
  abel

/-- What a call loses is lost from the sum. -/
theorem held_lose (hg : γ t = some g) {f : Held} {d : Nat → Multiset Nat}
    (h : f.objs + d = g.objs) :
    d + heldObjects (Function.update γ t (some f)) = heldObjects γ := by
  have hup := heldObjects_update γ t (some f)
  rw [hg] at hup
  simp only [callObjects, Option.elim, ← h] at hup
  refine add_right_cancel (b := f.objs) (Eq.trans ?_ hup)
  abel

theorem slabPop (hi : w.Inv γ) (hg : γ t = some g) (hsc : c < numSizeClasses) (e : Env) :
    ∃ r w', w.perform e (.slabPop c) = some (r, w') ∧
      w'.Inv (Function.update γ t (some (g.track (.slabPop c) r))) := by
  rcases Slabs.slabPop_spec hi.bounded hsc e.cpu with h | ⟨q, m', h, hcpu, hb', hobj, hw⟩
  · refine ⟨(0 : Nat), w, by simp only [perform, Allocator.perform, h]; rfl, ?_⟩
    rw [Held.track, if_pos rfl, ← hg, Function.update_eq_self]
    exact hi
  · refine ⟨q, { w with allocator := w.allocator.setMem m' },
      by simp only [perform, Allocator.perform, h]; rfl, ?_⟩
    -- the top of a stack is handed out
    have hq : q ≠ 0 := by
      refine (hi.range (c := c) ?_).2.2.1
      simp only [handed, slabObjects, hobj, Pi.add_apply, inClass, Pi.single_eq_same,
        Multiset.mem_add, Multiset.mem_singleton, true_or, or_true]
    rw [Held.track, if_neg hq]
    refine hi.move (m := m') rfl rfl rfl (hi.cell_mem hcpu hsc hw) hb' ?_
      (hi.routed_update fun g' h => ?_)
    · have hheld := held_gain hg (f := g.gain c {q}) rfl
      simp only [handed, slabObjects, Allocator.setMem, hheld, hobj]
      abel
    · obtain rfl := Option.some.inj h
      exact (hi.routed t g hg).gain c {q}

theorem slabPush (hi : w.Inv γ) (hg : γ t = some g) (hsc : c < numSizeClasses)
    (hp : p ∈ g.objs c) (e : Env) :
    ∃ r w', w.perform e (.slabPush c p) = some (r, w') ∧
      w'.Inv (Function.update γ t (some (g.track (.slabPush c p) r))) := by
  have hlt := (hi.range (mem_handed hg hp)).2.2.2
  rcases Slabs.slabPush_spec hi.bounded hsc hlt e.cpu with h | ⟨m', h, hcpu, hb', hobj, hw⟩
  · refine ⟨false, w, by simp only [perform, Allocator.perform, h]; rfl, ?_⟩
    rw [Held.track, if_neg Bool.false_ne_true, ← hg, Function.update_eq_self]
    exact hi
  · refine ⟨true, { w with allocator := w.allocator.setMem m' },
      by simp only [perform, Allocator.perform, h]; rfl, ?_⟩
    rw [Held.track, if_pos rfl]
    refine hi.move (m := m') rfl rfl rfl (hi.cell_mem hcpu hsc hw) hb' ?_
      (hi.routed_update fun g' h => ?_)
    · have hheld := held_lose hg (Held.lose_add (Multiset.singleton_le.mpr hp))
      simp only [handed, slabObjects, Allocator.setMem, ← hheld, hobj]
      abel
    · obtain rfl := Option.some.inj h
      exact (hi.routed t g hg).lose c {p}

theorem removeRange (hi : w.Inv γ) (hg : γ t = some g) (c n : Nat) (e : Env) :
    ∃ r w', w.perform e (.removeRange c n) = some (r, w') ∧ Ans g (.removeRange c n) r ∧
      w'.Inv (Function.update γ t (some (g.track (.removeRange c n) r))) := by
  obtain ⟨hlen, -⟩ := (w.allocator.transferCaches c).removeRange_spec n
  have htc := transferObjects_removeRange w.allocator c n
  refine ⟨((w.allocator.transferCaches c).removeRange n).1, _, rfl, ⟨hlen, fun q hq => ?_⟩, ?_⟩
  · refine (hi.range (c := c) ?_).2.2.1
    simp only [handed, ← htc, Pi.add_apply, inClass, Pi.single_eq_same, Multiset.mem_add]
    exact .inr (.inl hq)
  · refine hi.move (m := w.allocator.backend.mem) rfl rfl rfl (fun _ _ => rfl) hi.bounded ?_
      (hi.routed_update fun g' h => ?_)
    · have hheld := held_gain hg
        (f := g.gain c ((w.allocator.transferCaches c).removeRange n).1) rfl
      simp only [handed, Held.track, hheld, ← htc]
      show _ + slabObjects w.allocator + _ = _
      abel
    · obtain rfl := Option.some.inj h
      exact (hi.routed t g hg).gain c _

theorem insertRange (hi : w.Inv γ) (hg : γ t = some g) {batch : List Nat}
    (hb : (batch : Multiset Nat) ≤ g.objs c) (e : Env) :
    ∃ r w', w.perform e (.insertRange c batch) = some (r, w') ∧ Ans g (.insertRange c batch) r ∧
      w'.Inv (Function.update γ t (some (g.track (.insertRange c batch) r))) := by
  obtain ⟨hle, -⟩ := (w.allocator.transferCaches c).insertRange_spec batch
  have htc := transferObjects_insertRange w.allocator c batch
  refine ⟨((w.allocator.transferCaches c).insertRange batch).1, _, rfl, hle, ?_⟩
  refine hi.move (m := w.allocator.backend.mem) rfl rfl rfl (fun _ _ => rfl) hi.bounded ?_
    (hi.routed_update fun g' h => ?_)
  · have htake : (batch.take ((w.allocator.transferCaches c).insertRange batch).1 : Multiset Nat) ≤
        g.objs c := (Multiset.coe_le.mpr (List.take_sublist _ batch).subperm).trans hb
    have hheld := held_lose hg (Held.lose_add htake)
    simp only [handed, Held.track, ← hheld, htc]
    show _ + slabObjects w.allocator + _ = _
    abel
  · obtain rfl := Option.some.inj h
    exact (hi.routed t g hg).lose c _

theorem spanFor (hi : w.Inv γ) (hg : γ t = some g) (hp : p ∈ g.objs c) (e : Env) :
    ∃ r w', w.perform e (.spanFor p) = some (r, w') ∧ Ans g (.spanFor p) r ∧
      w'.Inv (Function.update γ t (some (g.track (.spanFor p) r))) := by
  obtain ⟨L, S, hb⟩ := hi.backend
  obtain ⟨s, -, -, -, -, -, -, hfor⟩ := hb.span_of_out (mem_handed hg hp)
  refine ⟨w.allocator.backend.pageHeap.spanFor p, w, rfl, ⟨s, hfor⟩, ?_⟩
  refine hi.move (m := w.allocator.backend.mem) rfl rfl rfl (fun _ _ => rfl) hi.bounded ?_
    (hi.routed_update fun g' h => ?_)
  · have hheld := held_gain hg (f := g.track (.spanFor p) (w.allocator.backend.pageHeap.spanFor p))
      (d := 0) (zero_add _).symm
    rw [handed, hheld, zero_add, handed]
  · obtain rfl := Option.some.inj h
    exact (hi.routed t g hg).look hp

theorem spanSize (hi : w.Inv γ) (hg : γ t = some g) {s : SpanId} (hp : p ∈ g.objs c)
    (hs : g.route p = some s) (e : Env) :
    ∃ r w', w.perform e (.spanSize s) = some (r, w') ∧ Ans g (.spanSize s) r ∧
      w'.Inv (Function.update γ t (some (g.track (.spanSize s) r))) := by
  obtain ⟨L, S, hb⟩ := hi.backend
  -- each object routed to `s` is in the class of `s`
  have hclass : ∀ d q, q ∈ g.objs d → g.route q = some s →
      ∃ x, w.allocator.backend.pageHeap.spans s = some x ∧ x.size = (sizeClass d).size := by
    intro d q hq hqs
    obtain ⟨u, x, i, hu, hx, -, -, hfor⟩ := hb.span_of_out (mem_handed hg hq)
    obtain rfl := Option.some.inj (((hi.routed t g hg) q s hqs).2.symm.trans hfor)
    exact ⟨x, hx, (hb.serves d s x hu hx).size_eq⟩
  obtain ⟨x, hx, -⟩ := hclass c p hp hs
  refine ⟨x.size, w, by simp only [perform, Allocator.perform, hx]; rfl, fun d q hq hqs => ?_, ?_⟩
  · obtain ⟨h₁, h₂, -, -⟩ := hi.range (mem_handed hg hq)
    obtain ⟨y, hy, hyz⟩ := hclass d q hq hqs
    obtain rfl := Option.some.inj (hx.symm.trans hy)
    exact ⟨h₁, h₂, hyz⟩
  · rw [Held.track, ← hg, Function.update_eq_self]
    exact hi

theorem centralAllocate (hi : w.Inv γ) (hg : γ t = some g) (c : Nat) (e : Env) :
    ∃ r w', w.perform e (.centralAllocate c) = some (r, w') ∧
      w'.Inv (Function.update γ t (some (g.track (.centralAllocate c) r))) := by
  obtain ⟨L, S, hb⟩ := hi.backend
  obtain ⟨q, b', L', S', hres, hb', -, hw, hsteady, -⟩ :=
    Backend.allocate_spec hb (sizeClass_classOk c) e.kernel
  obtain ⟨hforeign, hsound⟩ := hsteady.os_sound hi.sound
  obtain ⟨hbounded, hslabs⟩ := hi.slabs_congr hb' hforeign hsound hw
  refine ⟨q, { w with allocator := { w.allocator with backend := b' } },
    by simp only [perform, Allocator.perform, hres]; rfl, ?_⟩
  -- the object joins what the call holds
  obtain ⟨d, hd, hgain⟩ : ∃ d, (g.track (.centralAllocate c) q).objs = d + g.objs ∧
      Backend.gain (w.handed γ) c q = d + w.handed γ := by
    by_cases hq : q = 0
    · subst hq
      exact ⟨0, (zero_add _).symm, by rw [Backend.gain, if_pos rfl, zero_add]⟩
    · exact ⟨inClass c {q}, by rw [Held.track, if_neg hq]; rfl, gain_eq _ c hq⟩
  have hhanded : ({ w with allocator := { w.allocator with backend := b' } } : World).handed
      (Function.update γ t (some (g.track (.centralAllocate c) q))) =
        Backend.gain (w.handed γ) c q := by
    rw [hgain, handed, held_gain hg hd, handed]
    show liveObjects w.live + (d + heldObjects γ) + Slabs.objects b'.mem _ _ +
      transferObjects w.allocator = _
    rw [hslabs]
    abel
  have hroute : ∀ t g, γ t = some g → Routed b'.pageHeap g := fun t g hg =>
    (hi.routed t g hg).congr fun d q hq => by
      have hq' := mem_handed (w := w) hg hq
      refine hsteady.route d q hq' hq'
  refine ⟨⟨L', S', hhanded ▸ hb'⟩, hbounded, fun a h₁ h₂ => ?_, hsound, fun t' g' h => ?_⟩
  · exact hforeign ▸ hi.region a h₁ h₂
  · by_cases ht : t' = t
    · subst ht
      rw [Function.update_self] at h
      obtain rfl := Option.some.inj h
      rw [Held.track]
      split
      · exact hroute t' g hg
      · exact (hroute t' g hg).gain c _
    · rw [Function.update_of_ne ht] at h
      exact hroute t' g' h

/-- What is handed out after a central list has taken an object back. -/
theorem handed_lose (hg : γ t = some g) (hp : p ∈ g.objs c) {b' : Backend}
    (hslabs : Slabs.objects b'.mem w.allocator.perCpuCaches w.allocator.slabCount =
      slabObjects w.allocator) :
    World.handed { w with allocator := { w.allocator with backend := b' } }
      (Function.update γ t (some (g.lose c {p}))) = Backend.lose (w.handed γ) c p := by
  have hheld := held_lose hg (Held.lose_add (Multiset.singleton_le.mpr hp))
  refine add_left_cancel (a := inClass c {p}) ?_
  rw [lose_eq (mem_handed hg hp), handed, handed, ← hheld]
  show _ + (_ + _ + Slabs.objects b'.mem _ _ + transferObjects w.allocator) = _
  rw [hslabs]
  abel

theorem centralDeallocate (hi : w.Inv γ) (hg : γ t = some g) {s : SpanId} (hp : p ∈ g.objs c)
    (hs : g.route p = some s) (e : Env) :
    ∃ r w', w.perform e (.centralDeallocate c s p) = some (r, w') ∧
      w'.Inv (Function.update γ t (some (g.track (.centralDeallocate c s p) r))) := by
  obtain ⟨L, S, hb⟩ := hi.backend
  have hout := mem_handed (w := w) hg hp
  obtain ⟨x, b', L', S', -, -, hres, hb', hw, hsteady, -⟩ :=
    Backend.deallocateLocked_spec hb hout ((hi.routed t g hg) p s hs).2
  obtain ⟨hforeign, hsound⟩ := hsteady.os_sound hi.sound
  obtain ⟨hbounded, hslabs⟩ := hi.slabs_congr hb rfl hi.sound hw
  refine ⟨(), { w with allocator := { w.allocator with backend := b' } },
    by simp only [perform, Allocator.perform, hres]; rfl, ?_⟩
  have hhanded := handed_lose hg hp hslabs
  refine ⟨⟨L', S', hhanded ▸ hb'⟩, hbounded, fun a h₁ h₂ => ?_, hsound, fun t' g' h => ?_⟩
  · exact hforeign ▸ hi.region a h₁ h₂
  · have hr : Routed w.allocator.backend.pageHeap g' := by
      refine hi.routed_update (f := some (g.lose c {p})) (fun g' h' => ?_) t' g' h
      obtain rfl := Option.some.inj h'
      exact (hi.routed t g hg).lose c {p}
    refine hr.congr fun d q hq => ?_
    have hq' := mem_handed (w := { w with allocator := { w.allocator with backend := b' } }) h hq
    rw [show g.track (.centralDeallocate c s p) () = g.lose c {p} from rfl, hhanded] at hq'
    refine hsteady.route d q ?_ hq'
    rw [← lose_eq hout]
    exact Multiset.mem_add.mpr (.inr hq')

/-- **One action** of a call that has what it needs. -/
theorem perform (hi : w.Inv γ) (hg : γ t = some g) {a : Action} (ha : Pre g a) (e : Env) :
    ∃ r w', w.perform e a = some (r, w') ∧ Ans g a r ∧
      w'.Inv (Function.update γ t (some (g.track a r))) := by
  cases a with
  | slabPop sc =>
      obtain ⟨r, w', h, hi'⟩ := hi.slabPop hg ha e
      exact ⟨r, w', h, trivial, hi'⟩
  | slabPush sc ptr =>
      obtain ⟨r, w', h, hi'⟩ := hi.slabPush hg ha.1 ha.2 e
      exact ⟨r, w', h, trivial, hi'⟩
  | removeRange sc n => exact hi.removeRange hg sc n e
  | insertRange sc batch => exact hi.insertRange hg ha e
  | centralAllocate sc =>
      obtain ⟨r, w', h, hi'⟩ := hi.centralAllocate hg sc e
      exact ⟨r, w', h, trivial, hi'⟩
  | spanFor ptr =>
      obtain ⟨c, hp⟩ := ha
      exact hi.spanFor hg hp e
  | spanSize s =>
      obtain ⟨c, p, hp, hs⟩ := ha
      exact hi.spanSize hg hp hs e
  | centralDeallocate sc s ptr =>
      obtain ⟨r, w', h, hi'⟩ := hi.centralDeallocate hg ha.1 ha.2 e
      exact ⟨r, w', h, trivial, hi'⟩

/-! ### Calls and clients -/

theorem begin (hi : w.Inv γ) (hg : γ t = none) {x : Call} {w' : World}
    (h : w.begin x = some (g, w')) :
    w'.Inv (Function.update γ t (some g)) ∧ x.program.wp rules (Done x) g := by
  have hup := heldObjects_update γ t (some g)
  simp only [hg, callObjects, Option.elim, add_zero] at hup
  cases x with
  | allocate n =>
      obtain ⟨rfl, rfl⟩ := Prod.mk.inj (Option.some.inj h)
      refine ⟨?_, Program.allocate_wp n⟩
      refine hi.move (m := w.allocator.backend.mem) rfl rfl rfl (fun _ _ => rfl) hi.bounded ?_
        (hi.routed_update fun g' h => ?_)
      · rw [handed, handed, hup]
        show _ + (heldObjects γ + 0) + _ + _ = _
        rw [add_zero]
      · obtain rfl := Option.some.inj h
        exact Routed.empty
  | deallocate p =>
      simp only [World.begin, Option.map_eq_some_iff, Prod.mk.injEq] at h
      obtain ⟨b, hb, rfl, rfl⟩ := h
      have hmem := List.mem_of_find?_eq_some hb
      obtain rfl : b.ptr = p := by simpa using List.find?_some hb
      refine ⟨?_, Program.deallocate_wp (hi.range (live_handed hmem)).2.2.1⟩
      refine hi.move (m := w.allocator.backend.mem) rfl rfl rfl (fun _ _ => rfl) hi.bounded ?_
        (hi.routed_update fun g' h => ?_)
      · rw [handed, handed, hup, liveObjects_erase hmem]
        show _ + (heldObjects γ + (inClass b.sc {b.ptr} + 0)) + _ + _ = _
        simp only [add_zero]
        show _ + _ + slabObjects w.allocator + transferObjects w.allocator = _
        abel
      · obtain rfl := Option.some.inj h
        exact Routed.empty.gain _ _

theorem finish (hi : w.Inv γ) (hg : γ t = some g) {x : Call} {v : Result x} (hd : Done x g v) :
    (w.finish x v).Inv (Function.update γ t none) := by
  have hup := heldObjects_update γ t none
  simp only [hg, callObjects, Option.elim, add_zero] at hup
  have hempty : g.objs = 0 → w.Inv (Function.update γ t none) := fun h0 => by
    refine hi.move (m := w.allocator.backend.mem) rfl rfl rfl (fun _ _ => rfl) hi.bounded ?_
      (hi.routed_update fun _ h => by cases h)
    rw [h0, add_zero] at hup
    rw [handed, handed, hup]
  cases x with
  | allocate n =>
      rcases hd with ⟨hv, h0, -⟩ | ⟨hv, -, hobjs⟩
      · rw [World.finish, if_pos hv]
        exact hempty h0
      · rw [World.finish, if_neg hv]
        refine hi.move (m := w.allocator.backend.mem) rfl rfl rfl (fun _ _ => rfl) hi.bounded ?_
          (hi.routed_update fun _ h => by cases h)
        rw [handed, handed, liveObjects_cons, ← hup, hobjs]
        show inClass (roundSizeClass n).2 {v} + _ + _ + slabObjects w.allocator +
          transferObjects w.allocator = _
        abel
  | deallocate p => exact hempty hd

end Actions

/-- The new allocator. -/
theorem init (mem : Memory) (foreign : Nat → Bool) (slabPage slabCount : Nat) :
    (World.init mem foreign slabPage slabCount).Inv fun _ : ι => none := by
  set w := World.init mem foreign slabPage slabCount with hw
  have hzero : ∀ cpu < slabCount, ∀ c < numSizeClasses,
      Slabs.current w.allocator.backend.mem (Slabs.getSlabs w.allocator.perCpuCaches cpu) c =
        0 := by
    intro cpu hcpu c hc
    refine Memory.load_eq_zero _ _ fun a h₁ h₂ => ?_
    obtain ⟨h₃, h₄⟩ := Slabs.current_region w.allocator.perCpuCaches hcpu hc
    exact if_pos (show slabPage * pageSize ≤ a ∧ a < slabPage * pageSize +
      slabCount * slabStrideBytes from ⟨h₃.trans h₁, h₂.trans_le h₄⟩)
  have hhanded : w.handed (fun _ : ι => none) = fun _ => 0 := by
    funext c
    have hslabs : slabObjects w.allocator c = 0 := by
      rw [slabObjects, Slabs.objects]
      split
      · refine Finset.sum_eq_zero fun cpu hcpu => ?_
        have := hzero cpu (Finset.mem_range.mp hcpu) c ‹_›
        rw [Slabs.stack, Slabs.slabStack, this]
        rfl
      · rfl
    have hheld : heldObjects (fun _ : ι => none) = 0 := Finset.sum_const_zero
    simp only [handed, Pi.add_apply, hslabs, hheld]
    rfl
  refine ⟨⟨fun _ => [], fun _ => [], ?_⟩, fun cpu hcpu c hc => ?_, fun a h₁ h₂ => ?_,
    fun q hq => ?_, fun _ _ h => by cases h⟩
  · rw [hhanded]
    exact Backend.Inv.init _ _ sizeClass
  · rw [hzero cpu hcpu c hc]
    exact Nat.zero_le _
  · have hpos : 0 < pageSize := by decide
    replace h₁ : slabPage * pageSize ≤ a := h₁
    replace h₂ : a < slabPage * pageSize + slabCount * slabStrideBytes := h₂
    have hlo := (Nat.le_div_iff_mul_le hpos).mpr h₁
    have hhi : a / pageSize <
        slabPage + (slabCount * slabStrideBytes + pageSize - 1) / pageSize := by
      rw [Nat.div_lt_iff_lt_mul hpos, Nat.add_mul]
      have := Nat.lt_div_mul_add hpos (a := slabCount * slabStrideBytes + pageSize - 1)
      omega
    show (foreign _ || (decide _ && decide _)) = true
    simp [hlo, hhi]
  · cases hq

end World.Inv

/-- The steps of the machine meet what the invariant asks of them. -/
theorem machine_sound [DecidableEq ι] : machine.Sound ι Pre Ans Done World.Inv where
  begin hi hg h := hi.begin hg h
  perform e hi hg ha := hi.perform hg ha e
  finish hi hg hd := hi.finish hg hd
  client hi h := hi.client h

/-- **Runs.**  The invariant holds after each run of any threads in any order, on any CPUs and
with any answers of the kernel, and each running call still meets its specification. -/
theorem ok_of_run [DecidableEq ι] {mem : Memory} {foreign : Nat → Bool} {slabPage slabCount : Nat}
    {ls : List (Step ι Call Env ClientWrite)} {u : Process ι}
    (r : (Process.system ι).Run (Process.init ι mem foreign slabPage slabCount) ls u) :
    machine.Ok Pre Ans Done World.Inv u :=
  machine_sound.run r (Machine.ok_rest (World.Inv.init mem foreign slabPage slabCount))

end TieredAllocator
