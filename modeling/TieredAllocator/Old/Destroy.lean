import TieredAllocator.Old.Runs
import TieredAllocator.Old.Space

/-!
# Old design — the destructor

`~Allocator` gives the head of the free list to `deallocate(Block*)` until the list is empty.  A
block that is not the last one of the segment is put back on the list, and since the block behind it
is in use, nothing has changed.  So the loop ends exactly if no free block stands before a block in
use, that is if the free list holds the last block of the segment or nothing (`destroy_ends_iff`).
-/

namespace TieredAllocator.Old
open Lib

variable {a a' : Allocator} {g : Ghost} {b : Nat} {fuel rounds : Nat} {r : Bool} {k : Kernel}
  {ks : Nat → Kernel}

namespace Allocator

/-- `~Allocator`: `ks` are the kernel's choices for each round, and `none` if the loop is not done
after `rounds` of them. -/
def destroy (ks : Nat → Kernel) (fuel : Nat) : (rounds : Nat) → Allocator → Option Allocator
  | 0, _ => none
  | rounds + 1, a =>
      if a.freeList = 0 then some a
      else do
        let (_, a) ← a.deallocateBlock (ks rounds) fuel a.freeList
        destroy ks fuel rounds a

/-- Each block of the free list is the last one of the segment. -/
def OnlyTail (a : Allocator) : Prop :=
  ∀ i, a.nthFree i ≠ 0 → a.blockEnd (a.nthFree i) = a.brkHeapEnd

end Allocator

/-! ### A free block before a block in use -/

/-- Some free block is followed by another block. -/
def Held (a : Allocator) (g : Ghost) : Prop := ∃ b ∈ g.free, b + g.span b ≠ a.brkHeapEnd

namespace Coherent

theorem onlyTail_iff (hc : Coherent a g none) : a.OnlyTail ↔ ¬ Held a g := by
  have hlist := hc.exists_nthFree fun b => a.blockEnd b ≠ a.brkHeapEnd
  have hheld : Held a g ↔ ∃ b ∈ g.free, a.blockEnd b ≠ a.brkHeapEnd := by
    refine exists_congr fun b => and_congr_right fun hb => ?_
    rw [hc.blockEnd_eq (hc.mem_blocks hb)]
  rw [hheld, ← hlist, Allocator.OnlyTail]
  constructor
  · rintro h ⟨i, hne, hend⟩
    exact hend (h i hne)
  · intro h i hne
    by_contra hend
    exact h ⟨i, hne, hend⟩

/-- The head of the list is 0 if the list is empty, else its first block. -/
theorem freeList_cases (hc : Coherent a g none) :
    (a.freeList = 0 ∧ g.free = []) ∨ (a.freeList ∈ g.free ∧ 0 < a.freeList) := by
  have hwalk := hc.walk
  cases hl : g.free with
  | nil =>
      rw [hl] at hwalk
      exact .inl ⟨ptr_eq_none.mp hwalk, rfl⟩
  | cons b l =>
      rw [hl] at hwalk
      obtain ⟨hb, hpos⟩ := ptr_eq_some.mp hwalk.1
      exact .inr ⟨by simp [hb], by omega⟩

end Coherent

/-- Behind a free block stands a block in use. -/
theorem Inv.used_behind (hi : Inv a g) (hb : b ∈ g.free) (hend : b + g.span b ≠ a.brkHeapEnd) :
    b + g.span b ∈ g.blocks ∧ g.isFree (b + g.span b) = false := by
  have hc := hi.coherent
  have hbm := hc.mem_blocks hb
  have hnext := (hc.tiles.next_mem hbm).resolve_left hend
  refine ⟨hnext, ?_⟩
  by_contra hf
  exact List.not_mem_nil
    (hi.separate b hbm _ hnext rfl (hc.isFree_of_mem hb) (by simpa using hf))

/-- Where the block in use has not moved and what was free is free, a free block still stands
before it. -/
theorem held_of_kept {g' : Ghost} {u : Nat} (hi : Inv a' g') (hfree : g'.FreeSpace b)
    (hlt : b < u) (hused : g'.Used u) (hin : u + g'.span u ≤ a'.brkHeapEnd) : Held a' g' := by
  have hc := hi.coherent
  obtain ⟨c, hcm, hcf, hle, -⟩ := hfree
  refine ⟨c, (hc.onList c).mpr ⟨hcm, hcf, by simp⟩, fun hcend => ?_⟩
  -- a free block that starts below `u` ends below it
  have hspan := g'.span_pos u
  rcases hused with hmap | ⟨hblock, hnf⟩
  · have := hc.apart.maps c hcm u hmap
    omega
  · have hne : c ≠ u := by
      rintro rfl
      rw [hcf] at hnf
      cases hnf
    have := hc.apart.blocks c hcm u hblock hne
    omega

/-- A round of the loop leaves a free block before a block in use. -/
theorem held_step (hi : Inv a g) (hh : Held a g)
    (h : a.deallocateBlock k fuel a.freeList = some (r, a')) : ∃ g', Inv a' g' ∧ Held a' g' := by
  have hc := hi.coherent
  obtain ⟨b, hb, hend⟩ := hh
  obtain ⟨hbehind, hused⟩ := hi.used_behind hb hend
  have hhead : a.freeList ∈ g.free := by
    rcases hc.freeList_cases with ⟨-, hnil⟩ | ⟨hmem, -⟩
    · rw [hnil] at hb
      cases hb
    · exact hmem
  generalize a.freeList = f at *
  have hfm := hc.mem_blocks hhead
  have hother : b + g.span b ≠ f := by
    intro h
    rw [h, hc.isFree_of_mem hhead] at hused
    cases hused
  obtain ⟨ok, a₁, hunlink⟩ := unlinkFree_of_deallocateBlock hi hhead h
  obtain ⟨a₂, prev, hi₂, hsame, hu, heq⟩ := deallocateBlock_free hi hhead hunlink
  have hend₂ : a₂.brkHeapEnd = a.brkHeapEnd := hsame.2.1
  -- if `f` is the last block then it is not `b`, which stays on the list
  have hstays : f + g.span f = a.brkHeapEnd → b ∈ g.free.erase f := fun hf =>
    hc.nodup.mem_erase_iff.mpr ⟨fun h => hend (h ▸ hf), hb⟩
  cases release_cases hi₂ hu (heq ▸ h) with
  | refused hlast =>
      have hf : f + g.span f = a.brkHeapEnd := by
        rcases hlast with hmap | hlast
        · exact absurd rfl (hc.apart.ne hfm hmap)
        · exact hlast.trans hend₂
      exact ⟨_, hi₂, b, hstays hf, fun h => hend (h.trans hend₂)⟩
  | unmapped hmap _ _ _ _ => exact absurd rfl (hc.apart.ne hfm hmap)
  | shrunk _ hlast _ _ hi' => exact ⟨_, hi', b, hstays (hlast.trans hend₂), hother⟩
  | @listed _ g' _ _ hi' hk hsame' =>
      have hspan := g.span_pos b
      have hused₂ : ((g.detach prev f).loosen f).Used (b + g.span b) := by
        refine .inr ⟨hbehind, ?_⟩
        simpa [Ghost.loosen, Ghost.detach, Ghost.setIsFree, Ghost.setNext, hother] using hused
      obtain ⟨hused', hsize⟩ := hk.keeps _ hused₂
      have hc₂ := hi₂.coherent.loosen hfm (by simp [Ghost.detach])
      have hfree : g'.FreeSpace b := by
        have hfm₂ : f ∈ (g.detach prev f).blocks := hfm
        refine (hk.freeSpace hc₂ hi'.coherent hsame').mpr ?_
        refine (Ghost.freeSpace_loosen hfm₂).mpr ?_
        exact (Ghost.freeSpace_detach hc hhead prev).mp
          ⟨b, hc.mem_blocks hb, hc.isFree_of_mem hb, le_refl b, by omega⟩
      refine ⟨g', hi', held_of_kept hi' hfree (by omega) hused' ?_⟩
      have hin := (hc.tiles.mem hbehind).2
      have hend' : a'.brkHeapEnd = a.brkHeapEnd := hsame'.2.1.trans hend₂
      have hspan' : g'.span (b + g.span b) = g.span (b + g.span b) := congrArg (40 + ·) hsize
      rwa [hend', hspan']

/-- Then no number of rounds is enough. -/
theorem destroy_held (hi : Inv a g) (hh : Held a g) : a.destroy ks fuel rounds = none := by
  induction rounds generalizing a g with
  | zero => rfl
  | succ rounds ih =>
      rw [Allocator.destroy]
      rcases hi.coherent.freeList_cases with ⟨-, hnil⟩ | ⟨-, hpos⟩
      · obtain ⟨b, hb, -⟩ := hh
        rw [hnil] at hb
        cases hb
      · rw [if_neg (by omega)]
        cases hstep : a.deallocateBlock (ks rounds) fuel a.freeList with
        | none => rfl
        | some ra =>
            obtain ⟨r, a'⟩ := ra
            obtain ⟨g', hi', hh'⟩ := held_step hi hh hstep
            exact ih hi' hh'

/-! ### The last block of the segment -/

/-- A block of the segment that is not in front of another one goes back to the kernel. -/
theorem release_tail (hi : Inv a g) (hb : b ∈ g.blocks) (hend : b + g.span b = a.brkHeapEnd)
    (hbrk : k.brk = true) :
    ∃ os, a.release k fuel b = some (true, { a with os := os, brkHeapEnd := b }) := by
  have hc := hi.coherent
  have hle : a.os.startBrk ≤ b := by
    have hmem := hc.tiles.mem hb
    have hpos := hc.pos hb
    have hspan := g.span_pos b
    rcases hc.brk with ⟨-, hzero⟩ | ⟨hstart, -⟩
    · omega
    · omega
  have hset : a.os.setBrk k b = (true, { a.os with brk := b, startBrk_le := hle }) := by
    rw [Os.setBrk, dif_pos hle, if_pos hbrk]
  rw [Allocator.release, if_neg (by simp [hc.mapped_eq hb]), hc.blockEnd_eq hb,
    if_neg (not_not.mpr hend)]
  simp only [hset, if_true]
  exact ⟨_, rfl⟩

/-- The loop gives back the last block, if it is the only one of the list. -/
theorem destroy_tail (hi : Inv a g) (hl : g.free = [b]) (hend : b + g.span b = a.brkHeapEnd)
    (hbrk : ∀ i, (ks i).brk = true) :
    ∃ a', a.destroy ks 1 2 = some a' ∧ a'.freeList = 0 := by
  have hc := hi.coherent
  have hb : b ∈ g.free := by simp [hl]
  have hbm := hc.mem_blocks hb
  have hpos := hc.pos hbm
  have hwalk := hc.walk
  rw [hl] at hwalk
  obtain ⟨hhead, -⟩ := ptr_eq_some.mp hwalk.1
  have hunlink : a.unlinkFree 1 b = some (true, a.cut 0 b) :=
    unlinkFree_head hwalk hpos
  obtain ⟨a₂, prev, hi₂, hsame, -, heq⟩ := deallocateBlock_free (k := ks 1) hi hb hunlink
  obtain ⟨os, hrel⟩ := release_tail hi₂ hbm (hend.trans hsame.2.1.symm) (hbrk 1)
  have hzero : a₂.freeList = 0 := by
    have hwalk₂ := hi₂.coherent.walk
    rw [show (g.detach prev b).free = [] by simp [Ghost.detach, hl]] at hwalk₂
    exact ptr_eq_none.mp hwalk₂
  rw [hrel] at heq
  refine ⟨{ a₂ with os := os, brkHeapEnd := b }, ?_, hzero⟩
  rw [Allocator.destroy, hhead, if_neg (by omega), heq]
  show Allocator.destroy ks 1 1 { a₂ with os := os, brkHeapEnd := b } = _
  rw [Allocator.destroy, if_pos hzero]

theorem Inv.destroy_iff (hi : Inv a g) (hbrk : ∀ i, (ks i).brk = true) :
    (∃ fuel rounds a', a.destroy ks fuel rounds = some a' ∧ a'.freeList = 0) ↔ a.OnlyTail := by
  have hc := hi.coherent
  rw [hc.onlyTail_iff]
  constructor
  · rintro ⟨fuel, rounds, a', h, -⟩ hh
    rw [destroy_held hi hh] at h
    cases h
  · intro hno
    have hlast : ∀ b ∈ g.free, b + g.span b = a.brkHeapEnd := by
      intro b hb
      by_contra hend
      exact hno ⟨b, hb, hend⟩
    cases hl : g.free with
    | nil =>
        have hzero : a.freeList = 0 := by
          rcases hc.freeList_cases with ⟨h, -⟩ | ⟨hmem, -⟩
          · exact h
          · rw [hl] at hmem
            cases hmem
        exact ⟨0, 1, a, by rw [Allocator.destroy, if_pos hzero], hzero⟩
    | cons b l =>
        -- two blocks cannot both be the last one
        obtain rfl : l = [] := by
          refine List.eq_nil_iff_forall_not_mem.mpr fun c hcl => ?_
          have hb : b ∈ g.free := by simp [hl]
          have hcm : c ∈ g.free := by simp [hl, hcl]
          have heq := hc.prev_unique (hc.mem_blocks hb) (hc.mem_blocks hcm)
            ((hlast c hcm).trans (hlast b hb).symm)
          have hnd := hc.nodup
          rw [hl] at hnd
          exact (List.nodup_cons.mp hnd).1 (heq ▸ hcl)
        obtain ⟨a', h, hzero⟩ := destroy_tail hi hl (hlast b (by simp [hl])) hbrk
        exact ⟨1, 2, a', h, hzero⟩

/-! ### Runs -/

variable {w : World} {mem : Memory} {os : Os} {ss : List Step}

/-- **The destructor.**  After each run without wrapping sizes, and if `brk` succeeds: the loop of
the destructor ends, with an empty list, exactly if the list holds no block but the last one of the
segment, that is if no block in use stands behind a free one. -/
theorem destroy_ends_iff (r : World.system.Run (World.init k mem os) ss w)
    (hn : ∀ s ∈ ss, s.NoWrap) (hbrk : ∀ i, (ks i).brk = true) :
    (∃ fuel rounds a', w.allocator.destroy ks fuel rounds = some a' ∧ a'.freeList = 0) ↔
      w.allocator.OnlyTail := by
  obtain ⟨g, hw⟩ := World.run_ok r hn
  exact hw.inv.destroy_iff hbrk

/-- The initial chunk is allocated and given back while the block behind it is in use. -/
def heldSteps : List Step :=
  let k : Kernel := ⟨true, true, true, none⟩
  [⟨.allocate 4096, 9, k⟩, ⟨.allocate 100, 9, k⟩, ⟨.deallocate 4120, 9, k⟩]

/-- After these calls the destructor does not end, whatever the kernel grants. -/
theorem destroy_ends_fails : ∃ w : World,
    World.system.Run (World.init ⟨true, true, true, none⟩ .zero sampleOs) heldSteps w ∧
      (∀ s ∈ heldSteps, s.NoWrap) ∧
      ∀ ks fuel rounds, w.allocator.destroy ks fuel rounds = none := by
  have h : (World.system.replay (World.init ⟨true, true, true, none⟩ .zero sampleOs)
      heldSteps).map (fun w => decide (w.allocator.nthFree 0 ≠ 0 ∧
        w.allocator.blockEnd (w.allocator.nthFree 0) ≠ w.allocator.brkHeapEnd)) = some true := by
    decide +kernel
  obtain ⟨w, hw, hend⟩ := Option.map_eq_some_iff.mp h
  obtain ⟨hne, hend⟩ := of_decide_eq_true hend
  have hrun := System.Run.of_replay hw
  have hwrap : ∀ s ∈ heldSteps, s.NoWrap := by decide
  obtain ⟨g, hok⟩ := World.run_ok hrun hwrap
  have hheld : Held w.allocator g := by
    by_contra hno
    exact hend (hok.inv.coherent.onlyTail_iff.mpr hno 0 hne)
  exact ⟨w, hrun, hwrap, fun ks fuel rounds => destroy_held hok.inv hheld⟩

/-- A block in front of another is given back and asked for again, so that the end of the chunk is
all that is free. -/
def tailSteps : List Step :=
  let k : Kernel := ⟨true, true, true, none⟩
  [⟨.allocate 100, 9, k⟩, ⟨.allocate 200, 9, k⟩, ⟨.deallocate 4120, 9, k⟩, ⟨.allocate 100, 9, k⟩]

theorem destroy_ends_sample : ∃ w : World,
    World.system.Run (World.init ⟨true, true, true, none⟩ .zero sampleOs) tailSteps w ∧
      w.live = [4120, 4260] ∧ ∃ fuel rounds a',
        w.allocator.destroy (fun _ => ⟨true, true, true, none⟩) fuel rounds = some a' ∧
          a'.freeList = 0 := by
  have h : (World.system.replay (World.init ⟨true, true, true, none⟩ .zero sampleOs)
      tailSteps).map (fun w => (w.live, decide (w.allocator.nthFree 1 = 0 ∧
        w.allocator.blockEnd (w.allocator.nthFree 0) = w.allocator.brkHeapEnd))) =
          some ([4120, 4260], true) := by
    decide +kernel
  obtain ⟨w, hw, heq⟩ := Option.map_eq_some_iff.mp h
  obtain ⟨hlive, hfree⟩ := Prod.mk.inj heq
  obtain ⟨hone, htail⟩ := of_decide_eq_true hfree
  have hrun := System.Run.of_replay hw
  refine ⟨w, hrun, hlive, (destroy_ends_iff hrun (by decide) fun _ => rfl).mpr fun i hne => ?_⟩
  cases i with
  | zero => exact htail
  | succ i => exact absurd (nthFree_of_le hone (Nat.le_add_left 1 i)) hne

end TieredAllocator.Old
