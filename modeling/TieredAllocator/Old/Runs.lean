import TieredAllocator.Old.Requests

/-!
# Old design — runs

Clients call `allocate`, and `deallocate` for pointers that they hold and for blocks on the free
list; between the calls they write into their memory.  The invariant holds after each run in which
no request wraps, whatever the kernel grants (`World.run_ok`); `heap_exact` reads it back in terms
of what is in memory.
-/

namespace TieredAllocator.Old
open Lib

variable {a a' : Allocator} {g : Ghost} {b c n p : Nat} {w w' : World} {s : Step} {k : Kernel}
  {mem : Memory} {os : Os} {ss : List Step}

/-! ### Clients write -/

/-- A store into the memory of a block in use. -/
theorem Inv.write {v i j : Nat} (hi : Inv a g) (hb : g.Used b) (h₁ : b + 24 ≤ i)
    (h₂ : i + j ≤ b + 24 + g.size b) : Inv { a with mem := a.mem.store i j v } g := by
  have hc := hi.coherent
  have hspan : g.span b = 40 + g.size b := rfl
  have hm : ∀ y, ¬ (b ≤ y ∧ y < b + g.span b) → (a.mem.store i j v).byte y = a.mem.byte y :=
    fun y hy => Memory.store_byte_of_not_mem (by omega)
  have hself : ∀ f, Holds a.mem b (g.header f b) → Holds (a.mem.store i j v) b (g.header f b) :=
    fun f h => h.write h₁ h₂
  have hmem : Holding (a.mem.store i j v) g := by
    rcases hb with hb | ⟨hb, hf⟩
    · refine hc.holding.frame hm (fun c hcm => .inr ⟨hcm, rfl, ?_⟩) fun c hcm => ?_
      · exact hc.apart.maps c hcm b hb
      · by_cases hcb : c = b
        · exact .inl (hcb ▸ hself true (hc.holding.maps b hb))
        · exact .inr ⟨hcm, rfl, hc.used_apart (.inl hcm) (.inl hb) hcb⟩
    · refine hc.holding.frame hm (fun c hcm => ?_) fun c hcm => .inr ⟨hcm, rfl, ?_⟩
      · by_cases hcb : c = b
        · exact .inl (hcb ▸ hself false (hc.holding.blocks b hb))
        · exact .inr ⟨hcm, rfl, hc.apart.blocks c hcm b hb hcb⟩
      · exact (hc.apart.maps b hb c hcm).symm
  exact ⟨⟨hmem, hc.tiles, hc.brk, hc.limit, hc.clear, hc.maps, hc.mapsApart, hc.chain, hc.nodup,
    hc.onList, hc.cursor⟩, hi.separate, hi.bytes⟩

/-! ### Runs -/

/-- The blocks of the pointers handed out are in use, and none was handed out twice. -/
structure World.Ok (w : World) (g : Ghost) : Prop where
  inv : Inv w.allocator g
  used : ∀ p ∈ w.live, ∃ b, p = b + headerSize ∧ g.Used b
  nodup : w.live.Nodup

/-- A request with room for the header and the footer of its block in 64 bits. -/
def Step.NoWrap (s : Step) : Prop :=
  match s.call with
  | .allocate size => size + overheadSize < 2 ^ 64
  | _ => True

instance : (s : Step) → Decidable s.NoWrap
  | ⟨.allocate size, _, _⟩ => inferInstanceAs (Decidable (size + overheadSize < 2 ^ 64))
  | ⟨.deallocate _, _, _⟩ | ⟨.deallocateFree _, _, _⟩ | ⟨.write _ _ _, _, _⟩ => isTrue trivial

namespace World

/-- A call takes at most the pointer `q` back. -/
theorem Ok.keep {g' : Ghost} {q : Nat} {r : Bool} (hw : w.Ok g) (hi : Inv a' g')
    (hk : KeepsBut g g' q r) :
    Ok ⟨a', if r then w.live.erase (q + headerSize) else w.live⟩ g' := by
  refine ⟨hi, fun p hp => ?_, ?_⟩
  · have hmem : p ∈ w.live ∧ (r = true → p ≠ q + headerSize) := by
      cases r with
      | false => exact ⟨hp, fun h => by cases h⟩
      | true =>
          obtain ⟨hne, hp⟩ := hw.nodup.mem_erase_iff.mp hp
          exact ⟨hp, fun _ => hne⟩
    obtain ⟨b, rfl, hu⟩ := hw.used p hmem.1
    refine ⟨b, rfl, (hk b hu ?_).1⟩
    cases r with
    | false => exact .inr rfl
    | true =>
        refine .inl ?_
        rintro rfl
        exact hmem.2 rfl rfl
  · split
    · exact hw.nodup.erase _
    · exact hw.nodup

/-- A call hands a block out that was not in use. -/
theorem Ok.grant {g' : Ghost} (hw : w.Ok g) (hi : Inv a' g') (hk : g.Keeps g') (hu : g'.Used c)
    (hnu : ¬ g.Used c) : Ok ⟨a', (c + headerSize) :: w.live⟩ g' := by
  refine ⟨hi, fun p hp => ?_, List.nodup_cons.mpr ⟨fun hp => ?_, hw.nodup⟩⟩
  · rcases List.mem_cons.mp hp with rfl | hp
    · exact ⟨c, rfl, hu⟩
    · obtain ⟨b, rfl, hb⟩ := hw.used p hp
      exact ⟨b, rfl, (hk b hb).1⟩
  · obtain ⟨b, hbc, hb⟩ := hw.used _ hp
    obtain rfl : c = b := Nat.add_right_cancel hbc
    exact hnu hb

/-- Each step keeps the invariant, and the blocks in use that it does not take back. -/
theorem step_keeps (hw : w.Ok g) (hn : s.NoWrap) (ha : w.allowed s.call) (h : w.step s = some w') :
    ∃ g', w'.Ok g' ∧ ∀ b, g.Used b → s.call ≠ .deallocate (b + headerSize) →
      g'.Used b ∧ g'.size b = g.size b ∧ (b + headerSize ∈ w.live → b + headerSize ∈ w'.live) := by
  obtain ⟨call, fuel, k⟩ := s
  cases call with
  | allocate size =>
      obtain ⟨⟨p, a'⟩, halloc, rfl⟩ := Option.map_eq_some_iff.mp h
      have hn : size + overheadSize < 2 ^ 64 := hn
      rw [show overheadSize = 40 from rfl] at hn
      rcases allocate_spec hw.inv hn halloc with
        ⟨rfl, hi⟩ | ⟨c, g', rfl, hne, hi, hk, hu, hnu, -⟩
      · refine ⟨g, ⟨hi, ?_, ?_⟩, fun b hb _ => ⟨hb, rfl, fun hp => ?_⟩⟩
        · simpa using hw.used
        · simpa using hw.nodup
        · simpa using hp
      · simp only [if_neg hne]
        exact ⟨g', hw.grant hi hk hu hnu, fun b hb _ =>
          ⟨(hk b hb).1, (hk b hb).2, List.mem_cons_of_mem _⟩⟩
  | deallocate ptr =>
      simp only [World.step] at h
      obtain ⟨⟨ok, a'⟩, hdealloc, rfl⟩ := Option.map_eq_some_iff.mp h
      obtain ⟨b, rfl, hu⟩ := hw.used ptr ha
      rw [hw.inv.coherent.deallocate_eq hu] at hdealloc
      obtain ⟨g', hi, hk⟩ := deallocateBlock_spec hw.inv (.inl hu) hdealloc
      refine ⟨g', hw.keep hi hk, fun c hc hne => ?_⟩
      have hcb : c ≠ b := fun h => hne (by rw [h])
      obtain ⟨hc', hs⟩ := hk c hc (.inl hcb)
      refine ⟨hc', hs, fun hp => ?_⟩
      have hpne : c + headerSize ≠ b + headerSize := by omega
      dsimp only
      split
      · exact (List.mem_erase_of_ne hpne).mpr hp
      · exact hp
  | deallocateFree i =>
      simp only [World.step] at h
      obtain ⟨⟨ok, a'⟩, hdealloc, rfl⟩ := Option.map_eq_some_iff.mp h
      have hb := hw.inv.coherent.nthFree_mem ha
      obtain ⟨g', hi, hk⟩ := deallocateBlock_spec hw.inv (.inr hb) hdealloc
      have hnot := hw.inv.coherent.not_used hb
      have hkeep : ∀ c, g.Used c → g'.Used c ∧ g'.size c = g.size c := fun c hc =>
        hk c hc (.inl fun h => hnot (h ▸ hc))
      refine ⟨g', ⟨hi, fun p hp => ?_, hw.nodup⟩, fun c hc _ =>
        ⟨(hkeep c hc).1, (hkeep c hc).2, id⟩⟩
      obtain ⟨b, rfl, hu⟩ := hw.used p hp
      exact ⟨b, rfl, (hkeep b hu).1⟩
  | write ptr i v =>
      obtain rfl := Option.some.inj h
      obtain ⟨b, rfl, hu⟩ := hw.used ptr ha.1
      have hlen : i < g.size b := by
        have hi := ha.2
        rw [Nat.add_sub_cancel] at hi
        rcases hu with hu | ⟨hu, -⟩
        · rwa [(hw.inv.coherent.holding.maps b hu).size_eq] at hi
        · rwa [hw.inv.coherent.size_eq hu] at hi
      refine ⟨g, ⟨hw.inv.write hu ?_ ?_, hw.used, hw.nodup⟩, fun c hc _ => ⟨hc, rfl, id⟩⟩
      · rw [headerSize]
        omega
      · rw [headerSize]
        omega

theorem step_ok (hw : w.Ok g) (hn : s.NoWrap) (ha : w.allowed s.call) (h : w.step s = some w') :
    ∃ g', w'.Ok g' := by
  obtain ⟨g', hw', -⟩ := step_keeps hw hn ha h
  exact ⟨g', hw'⟩

theorem init_ok (k : Kernel) (mem : Memory) (os : Os) : ∃ g, (World.init k mem os).Ok g := by
  obtain ⟨g, hi⟩ := init_spec k mem os
  exact ⟨g, hi, fun p hp => absurd hp List.not_mem_nil, .nil⟩

theorem run_ok (r : system.Run (World.init k mem os) ss w) (hn : ∀ s ∈ ss, s.NoWrap) :
    ∃ g, w.Ok g :=
  r.invariant_of (I := fun w => ∃ g, w.Ok g) (fun ⟨_, hw⟩ hn ha h => step_ok hw hn ha h) hn
    (init_ok k mem os)

end World

/-! ### The heap in memory -/

/-- What is in memory: `blocks` are the blocks of the segment, and `list` is the free list. -/
structure Exact (a : Allocator) (blocks list : List Nat) : Prop where
  /-- the blocks tile the segment, which ends at the program break -/
  tiles : Tiles (fun b => overheadSize + a.size b) a.brkHeapStart blocks a.brkHeapEnd
  segment : a.brkHeapStart ≠ 0 → a.brkHeapEnd = a.os.brk
  tags : ∀ b ∈ blocks, a.mapped b = false ∧ a.mem.load (a.footerOf b) 8 = a.size b ∧
    (a.mem.load (a.footerOf b + 8) 1 != 0) = a.mapped b
  chain : Forward (fun b => ptr (a.next b)) (ptr a.freeList) list
  nodup : list.Nodup
  onList : ∀ b, b ∈ list ↔ b ∈ blocks ∧ a.isFree b = true
  /-- no two neighbours are free -/
  separate : ∀ b ∈ blocks, ∀ c ∈ blocks, b + (overheadSize + a.size b) = c →
    ¬ (a.isFree b = true ∧ a.isFree c = true)
  cursor : a.prevSearchEnd = 0 ∨ a.prevSearchEnd ∈ list
  bytes : a.availableBytes = ((blocks.filter a.isFree).map a.size).sum

theorem Inv.exact (hi : Inv a g) : Exact a g.blocks g.free := by
  have hc := hi.coherent
  have hfilter : ∀ b, b ∈ g.free ↔ b ∈ g.blocks ∧ a.isFree b = true := by
    intro b
    rw [hc.onList]
    refine and_congr_right fun hb => ?_
    simp [hc.isFree_eq hb]
  refine ⟨hc.tiles.congr fun b hb => ?_, fun h => ?_, fun b hb => ?_, hc.walk, hc.nodup, hfilter,
    fun b hb c hcm hbc ⟨hfb, hfc⟩ => ?_, hc.cursor, ?_⟩
  · rw [hc.size_eq hb]
    rfl
  · rcases hc.brk with ⟨h', -⟩ | ⟨-, h'⟩
    · exact absurd h' h
    · exact h'.symm
  · have hx := hc.holding.blocks b hb
    have hfoot : a.footerOf b = b + 24 + g.size b := by
      have := hc.lt hb
      rw [Allocator.footerOf, hc.size_eq hb, headerSize, add64_eq (by omega)]
    rw [hfoot, hc.size_eq hb, hc.mapped_eq hb]
    refine ⟨rfl, hx.footerSize, ?_⟩
    rw [show a.mem.load (b + 24 + g.size b + 8) 1 = _ from hx.footerMapped]
    rfl
  · rw [hc.size_eq hb] at hbc
    rw [hc.isFree_eq hb] at hfb
    rw [hc.isFree_eq hcm] at hfc
    exact List.not_mem_nil (hi.separate b hb c hcm hbc hfb hfc)
  · -- the list and the free blocks are the same up to their order
    have hperm : g.free.Perm (g.blocks.filter a.isFree) :=
      (List.perm_ext_iff_of_nodup hc.nodup (hc.blocks_nodup.filter _)).mpr fun b => by
        rw [hfilter, List.mem_filter]
    have hsizes : g.free.map a.size = g.free.map g.size :=
      List.map_congr_left fun b hb => hc.size_eq (hc.mem_blocks hb)
    rw [hi.bytes, Ghost.freeBytes, ← hsizes]
    exact (hperm.map a.size).sum_eq

/-- The size of the block that `p` is the memory of. -/
def Allocator.sizeOf (a : Allocator) (p : Nat) : Nat := a.size (p - headerSize)

theorem Coherent.sizeOf_eq (hc : Coherent a g none) (hb : g.Used b) :
    a.sizeOf (b + headerSize) = g.size b := by
  rw [Allocator.sizeOf, Nat.add_sub_cancel]
  rcases hb with hb | ⟨hb, -⟩
  · exact (hc.holding.maps b hb).size_eq
  · exact hc.size_eq hb

/-- **The boundary-tag heap.**  After each run of `allocate`, and of `deallocate` for live pointers
and for blocks on the free list, in which no size wraps when the overhead is added to it: the blocks
tile the segment and have footers that equal their headers; the free ones are those on the list,
each once, and no two of them are neighbours; the cursor is null or on the list; the count is the
sum of the free sizes; and the memory of live blocks is pairwise disjoint. -/
theorem heap_exact (r : World.system.Run (World.init k mem os) ss w) (hn : ∀ s ∈ ss, s.NoWrap) :
    (∃ blocks list, Exact w.allocator blocks list) ∧
      w.live.Pairwise fun p q =>
        p + w.allocator.sizeOf p ≤ q ∨ q + w.allocator.sizeOf q ≤ p := by
  obtain ⟨g, hw⟩ := World.run_ok r hn
  have hc := hw.inv.coherent
  refine ⟨⟨_, _, hw.inv.exact⟩, ?_⟩
  refine List.Pairwise.imp_of_mem (fun {p q} hp hq hne => ?_) hw.nodup
  obtain ⟨b, rfl, hb⟩ := hw.used p hp
  obtain ⟨c, rfl, hc'⟩ := hw.used q hq
  have := hc.used_apart hb hc' fun h => hne (by rw [h])
  rw [hc.sizeOf_eq hb, hc.sizeOf_eq hc', headerSize]
  simp only [Ghost.span] at this
  omega

/-- Four blocks of the segment and a mapped one; two of the four are given back and coalesce, and
the block that they have become is taken off the list and put back. -/
def sampleSteps : List Step :=
  let k : Kernel := ⟨true, true, true, some 1000000⟩
  [⟨.allocate 1000, 9, k⟩, ⟨.allocate 200, 9, k⟩, ⟨.allocate 500, 9, k⟩, ⟨.allocate 3000, 9, k⟩,
    ⟨.allocate 300, 9, k⟩, ⟨.write 1000024 7 255, 9, k⟩, ⟨.deallocate 5160, 9, k⟩,
    ⟨.deallocate 4120, 9, k⟩, ⟨.deallocateFree 0, 9, k⟩]

def sampleOs : Os := ⟨4096, 4096, fun _ => false, by decide, by decide⟩

theorem heap_exact_sample : ∃ w : World, w.live = [5940, 1000024, 5400] ∧
    (∃ blocks list, Exact w.allocator blocks list) ∧
    w.live.Pairwise fun p q =>
      p + w.allocator.sizeOf p ≤ q ∨ q + w.allocator.sizeOf q ≤ p := by
  have h : (World.system.replay (World.init ⟨true, true, true, none⟩ .zero sampleOs)
      sampleSteps).map World.live = some [5940, 1000024, 5400] := by
    decide +kernel
  obtain ⟨w, hw, hlive⟩ := Option.map_eq_some_iff.mp h
  exact ⟨w, hlive, heap_exact (System.Run.of_replay hw) (by decide)⟩

end TieredAllocator.Old
