import TieredAllocator.Allocator.Invariant
import TieredAllocator.CentralFreeList.Runs

/-!
# Allocator — the partition of the objects

`Process.outside u c p` counts where the object `p` of class `c` is outside its span: among the
live blocks, in the hands of the running calls, on the stacks of the slabs and in the transfer
cache.  In each state that any threads reach, together with the packed list of its span and the
objects not yet carved, each object of each span is counted exactly once (`objects_partitioned`).
-/

namespace TieredAllocator
open Lib

variable {ι : Type} [Fintype ι]

namespace Process

/-- The objects of class `c` that the call of a thread has got and not yet passed on. -/
def callHolds (u : Process ι) (t : ι) (c : Nat) : Multiset Nat :=
  match u.threads t with
  | .idle => 0
  | .busy _ g _ => g.objs c

/-- How often `p` occurs outside its span, as an object of class `c`. -/
def outside (u : Process ι) (c p : Nat) : Nat :=
  let a := u.state.allocator
  u.state.live.countP (fun b => b.sc = c ∧ b.ptr = p) +
    ∑ t, (u.callHolds t c).count p +
    ∑ cpu ∈ Finset.range a.slabCount, (Slabs.stack a.backend.mem a.perCpuCaches cpu c).count p +
    (a.transferCaches c).slots.count p

theorem count_liveObjects (live : List Block) (c p : Nat) :
    (liveObjects live c).count p = live.countP fun b => b.sc = c ∧ b.ptr = p := by
  induction live with
  | nil => rfl
  | cons b live ih =>
      rw [liveObjects_cons, Pi.add_apply, Multiset.count_add, ih, List.countP_cons, add_comm]
      congr 1
      by_cases hc : b.sc = c
      · subst hc
        by_cases hp : b.ptr = p
        · simp [inClass, hp]
        · simp [inClass, hp, Ne.symm hp]
      · simp [inClass, hc]

omit [Fintype ι] in
theorem callObjects_ghosts (u : Process ι) (t : ι) (c : Nat) :
    callObjects (Machine.ghosts u t) c = u.callHolds t c := by
  rw [callHolds, Machine.ghosts]
  cases u.threads t with
  | idle => rfl
  | busy x g p => rfl

/-- `outside` counts what the central lists have handed out. -/
theorem outside_eq (u : Process ι) {c : Nat} (hc : c < numSizeClasses) (p : Nat) :
    u.outside c p = (u.state.handed (Machine.ghosts u) c).count p := by
  simp only [outside, World.handed, Pi.add_apply, Multiset.count_add, count_liveObjects,
    heldObjects, Finset.sum_apply, Multiset.count_sum', callObjects_ghosts, slabObjects,
    Slabs.objects, if_pos hc, Multiset.coe_count, transferObjects]

end Process

/-- Each object is in one place: what `outside`, the decoded packed list of the span and the part
not yet carved count adds up to one; what is outside belongs to a span of the class; and the
result of an `allocate` about to return overlaps no live block. -/
structure Partitioned (u : Process ι) : Prop where
  once : ∀ c < numSizeClasses, ∃ l,
    SpanList u.state.allocator.backend.pageHeap.spans
      (u.state.allocator.backend.freeList c).spanList l ∧
    (∀ s ∈ l, ∃ x items, u.state.allocator.backend.pageHeap.spans s = some x ∧
      x.size = (sizeClass c).size ∧
      decode (nodeNext u.state.allocator.backend.mem x.base x.size)
        (nodePacked u.state.allocator.backend.mem x.base x.size) invalidIndex
        (x.totalObjects + 1) x.freelistHead = some items ∧
      ∀ i < x.totalObjects, u.outside c (x.addr i) + items.count i +
        (if x.nextUninitialized ≤ i then 1 else 0) = 1) ∧
    ∀ p, 0 < u.outside c p → ∃ s ∈ l, ∃ x i,
      u.state.allocator.backend.pageHeap.spans s = some x ∧ i < x.totalObjects ∧ p = x.addr i
  fresh : ∀ t n g (p : Nat), u.threads t = .busy (.allocate n) g (.done p) → p ≠ 0 →
    ∀ b ∈ u.state.live, p + n ≤ b.ptr ∨ b.ptr + b.size ≤ p

/-- Each object of a span on a list is counted once. -/
theorem PackedListExact.count_eq {m : Memory} {x : Span} {o : Multiset Nat} {nodes items : List Nat}
    (h : PackedListExact m x o nodes items) (ho : o.Nodup) {i : Nat} (hi : i < x.totalObjects) :
    o.count (x.addr i) + items.count i + (if x.nextUninitialized ≤ i then 1 else 0) = 1 := by
  by_cases hn : x.nextUninitialized ≤ i
  · -- not carved
    have h₁ : x.addr i ∉ o := fun ho => absurd (h.out i hi ho) (not_lt.mpr hn)
    have h₂ : i ∉ items := fun hit => absurd (h.below i hit) (not_lt.mpr hn)
    rw [Multiset.count_eq_zero_of_notMem h₁, List.count_eq_zero_of_not_mem h₂, if_pos hn]
  · rw [if_neg hn]
    rcases h.partition i (not_le.mp hn) with ⟨h₁, h₂⟩ | ⟨h₁, h₂⟩
    · rw [Multiset.count_eq_zero_of_notMem h₂, List.count_eq_one_of_mem h.nodup h₁]
    · rw [Multiset.count_eq_one_of_mem ho h₁, List.count_eq_zero_of_not_mem h₂]

/-- The object of a call that is about to return is not a live block, nor does it overlap one. -/
theorem World.Inv.disjoint_of_held {w : World} {γ : ι → Option Held} (hi : w.Inv γ) {t : ι}
    {g : Held} (hg : γ t = some g) {c p : Nat} (hp : p ∈ g.objs c) {b : Block} (hb : b ∈ w.live) :
    p + (sizeClass c).size ≤ b.ptr ∨ b.ptr + b.size ≤ p := by
  obtain ⟨L, S, hback⟩ := hi.backend
  have hpo := World.Inv.mem_handed (w := w) hg hp
  obtain ⟨s, x, i, hs, hx, hix, hptr⟩ := hback.handed c p hpo
  obtain ⟨s', y, j, hs', hy, hjy, hptr', -, hsize⟩ := hi.live_object hback hb
  have hz := (hback.serves c s x hs hx).size_eq
  by_cases hss : s = s'
  · subst hss
    obtain rfl := Option.some.inj (hx.symm.trans hy)
    obtain rfl := hback.apart c b.sc s hs hs'
    have hij : i ≠ j := by
      -- the object would be held by the call and live at once
      rintro rfl
      have hcount : 2 ≤ (w.handed γ b.sc).count p := by
        have h₁ := Multiset.count_le_of_le p (callObjects_le γ t b.sc)
        have h₂ : 0 < (callObjects (γ t) b.sc).count p := by
          rw [hg]
          exact Multiset.count_pos.mpr hp
        have h₃ : 0 < (liveObjects w.live b.sc).count p :=
          Multiset.count_pos.mpr (hptr'.trans hptr.symm ▸ mem_liveObjects hb)
        simp only [World.handed, Pi.add_apply, Multiset.count_add]
        omega
      have := Multiset.nodup_iff_count_le_one.mp (hback.nodup b.sc) p
      omega
    have := indexToPtr_disjoint x.base x.size hij
    rw [hptr, hptr']
    simp only [Span.addr]
    omega
  · have := hback.addr_disjoint hs hs' hx hy hss hix hjy
    rw [hptr, hptr']
    omega

/-- **The partition of the objects.**  In each state that any number of threads reach, in any
order of their atomic steps, on any CPUs and with any answers of the kernel, each object of each
span of each class is in exactly one place, and no step that is due is undefined. -/
theorem objects_partitioned [DecidableEq ι] {mem : Memory} {foreign : Nat → Bool}
    {slabPage slabCount : Nat} {ls : List (Step ι Call Env ClientWrite)} {u : Process ι}
    (r : (Process.system ι).Run (Process.init ι mem foreign slabPage slabCount) ls u) :
    Partitioned u ∧ ∀ l, (Process.system ι).allowed u l →
      ∃ u', (Process.system ι).step u l = some u' := by
  have hok := ok_of_run r
  refine ⟨?_, fun l hl => ?_⟩
  swap
  · obtain ⟨u', h, -⟩ := machine_sound.step hok hl
    exact ⟨u', h⟩
  obtain ⟨hi, hwp⟩ := hok
  obtain ⟨L, S, hb⟩ := hi.backend
  refine ⟨fun c hc => ⟨S c, hb.list c, fun s hs => ?_, fun p hp => ?_⟩,
    fun t n g p ht hp b hlive => ?_⟩
  · obtain ⟨x, hx, hsx⟩ := hb.used hs
    obtain ⟨nodes, items, hex⟩ := hsx.packedListExact
    refine ⟨x, items, hx, hsx.size_eq, hex.decoded, fun i hi => ?_⟩
    rw [u.outside_eq hc]
    exact hex.count_eq (hb.nodup c) hi
  · rw [u.outside_eq hc, Multiset.count_pos] at hp
    obtain ⟨s, x, i, hs, hx, hix, hptr⟩ := hb.handed c p hp
    exact ⟨s, hs, x, i, hx, hix, hptr⟩
  · rcases hwp t _ g _ ht with ⟨h0, -⟩ | ⟨-, hn, hobjs⟩
    · exact absurd h0 hp
    · have hg : Machine.ghosts u t = some g := by rw [Machine.ghosts, ht]; rfl
      have hmem : p ∈ g.objs (roundSizeClass n).2 := by rw [hobjs]; simp [inClass]
      have hle := (roundSizeClass_spec hn).2.2.2.1
      rcases hi.disjoint_of_held hg hmem hlive with h | h
      · exact .inl (by omega)
      · exact .inr h

/-! ### A run -/

/-- One thread gets a block of 20000 bytes, for which a batch of three spans is fetched, while the
other is in the middle of a call; the client writes into the block. -/
def sampleSteps : List (Step (Fin 2) Call Env ClientWrite) :=
  let e : Env := ⟨0, PageHeap.kernelOf [16, 32, 48]⟩
  [.start 0 (.allocate 20000), .act 0 e, .start 1 (.allocate 100), .act 1 e, .act 0 e, .act 0 e,
    .act 0 e, .act 0 e, .act 0 e, .act 0 e, .finish 0, .client ⟨⟨196608, 20000⟩, 8, 8, 77⟩]

/-- The block is live, the first thread is idle, and the other one can go on. -/
theorem sampleSteps_run : ∃ u u', (Process.system (Fin 2)).Run
    (Process.init (Fin 2) Memory.zero (fun _ => false) 1000 1) sampleSteps u ∧
      u.state.live = [⟨196608, 20000⟩] ∧ u.threads 0 = .idle ∧
      (Process.system (Fin 2)).step u (.act 1 ⟨0, fun _ => none⟩) = some u' := by
  have h : (((Process.system (Fin 2)).replay
      (Process.init (Fin 2) Memory.zero (fun _ => false) 1000 1) sampleSteps).map fun u =>
        (decide (u.state.live = [⟨196608, 20000⟩]),
          ((Process.system (Fin 2)).step u (.start 0 (.allocate 0))).isSome,
          ((Process.system (Fin 2)).step u (.act 1 ⟨0, fun _ => none⟩)).isSome)) =
            some (true, true, true) := by
    decide +kernel
  obtain ⟨u, hu, heq⟩ := Option.map_eq_some_iff.mp h
  obtain ⟨hlive, heq⟩ := Prod.mk.inj heq
  obtain ⟨hstart, hact⟩ := Prod.mk.inj heq
  obtain ⟨u₀, hu₀⟩ := Option.isSome_iff_exists.mp hstart
  obtain ⟨u₁, hu₁⟩ := Option.isSome_iff_exists.mp hact
  exact ⟨u, u₁, System.Run.of_replay hu, of_decide_eq_true hlive, (Machine.step_start hu₀).1, hu₁⟩

theorem objects_partitioned_sample : ∃ u, (Process.system (Fin 2)).Run
    (Process.init (Fin 2) Memory.zero (fun _ => false) 1000 1) sampleSteps u ∧ Partitioned u := by
  obtain ⟨u, -, r, -⟩ := sampleSteps_run
  exact ⟨u, r, (objects_partitioned r).1⟩

end TieredAllocator
