import TieredAllocator.Old.Runs
import TieredAllocator.Old.Space

/-!
# Old design — the region of a request

Where the header, the memory and the footer of a block lie (`Placed`), and what a later `deallocate`
gives back (`GivesBack`).  Both are as they should be exactly if the size does not wrap when the
overhead is added to it (`size_arithmetic_iff`): a size that wraps is mapped with the few bytes that
are left of the sum.
-/

namespace TieredAllocator.Old
open Lib

variable {a a' : Allocator} {g g' : Ghost} {b c n p x : Nat} {fuel : Nat} {r : Bool} {k : Kernel}
  {w w' : World} {mem : Memory} {os : Os} {ss : List Step}

/-- The block whose memory `p` is has room for `n` bytes and lies, without a wrap, in the segment or
in memory that was not mapped before. -/
structure Placed (a a' : Allocator) (p n : Nat) : Prop where
  header : headerSize < p
  room : n ≤ a'.sizeOf p
  noWrap : p + a'.sizeOf p + footerSize ≤ 2 ^ 64
  footer : a'.footerOf (p - headerSize) = p + a'.sizeOf p
  obtained :
    (a'.brkHeapStart ≤ p - headerSize ∧ p + a'.sizeOf p + footerSize ≤ a'.os.brk) ∨
      ∀ x, p - headerSize ≤ x → x < p + a'.sizeOf p + footerSize →
        a.os.mapped x = false ∧ a'.os.mapped x = true

/-- The addresses from `start` up to `stop`, and no others, were unmapped, or cut off the segment,
or added to the free list. -/
inductive GivesBack (a a' : Allocator) (start stop : Nat) : Prop where
  | unmapped (hwas : ∀ x, start ≤ x → x < stop → a.os.mapped x = true)
      (hmap : ∀ x, a'.os.mapped x = true ↔ ¬ (start ≤ x ∧ x < stop) ∧ a.os.mapped x = true)
      (hbrk : a'.os.brk = a.os.brk) (hfree : ∀ x, a'.FreeAt x ↔ a.FreeAt x)
  | shrunk (hwas : a.os.brk = stop) (hbrk : a'.os.brk = start)
      (hmap : a'.os.mapped = a.os.mapped) (hfree : ∀ x, a'.FreeAt x ↔ a.FreeAt x)
  | listed (hos : a'.os = a.os) (hfree : ∀ x, a'.FreeAt x ↔ a.FreeAt x ∨ (start ≤ x ∧ x < stop))

/-- What `allocate(n)` should have done when it returned `p`: it placed the block, and whatever
calls follow, a `deallocate` of `p` that succeeds gives back the same region. -/
def World.Safe (w : World) (a' : Allocator) (p n : Nat) : Prop :=
  Placed w.allocator a' p n ∧
    ∀ ss w', World.system.Run ⟨a', p :: w.live⟩ ss w' →
      (∀ s ∈ ss, s.NoWrap ∧ s.call ≠ .deallocate p) →
      ∀ k fuel a'', w'.allocator.deallocate k fuel p = some (true, a'') →
        GivesBack w'.allocator a'' (p - headerSize) (p + a'.sizeOf p + footerSize)

/-! ### Blocks in use -/

/-- The end of the block of a pointer. -/
theorem Coherent.stop_eq (hc : Coherent a g none) (hb : g.Used b) :
    b + headerSize + a.sizeOf (b + headerSize) + footerSize = b + g.span b := by
  rw [hc.sizeOf_eq hb, Ghost.span, headerSize, footerSize]
  omega

/-- The segment ends at the program break. -/
theorem Coherent.brk_eq (hc : Coherent a g none) (hb : b ∈ g.blocks) :
    a.os.brk = a.brkHeapEnd := by
  rcases hc.brk with ⟨h, h'⟩ | ⟨-, h⟩
  · have hin := (hc.tiles.mem hb).2
    have hpos := hc.pos hb
    omega
  · exact h

/-- A block in use that was obtained from the system is placed. -/
theorem Inv.placed (hi : Inv a' g') (hb : g'.Used b) (hn : n ≤ g'.size b)
    (hob : Obtained a.os g' b) : Placed a a' (b + headerSize) n := by
  have hc := hi.coherent
  obtain ⟨hpos, hlt⟩ := hc.used_lt hb
  have hsize := hc.sizeOf_eq hb
  have hstop := hc.stop_eq hb
  have hspan : g'.span b = 40 + g'.size b := rfl
  refine ⟨by omega, hsize ▸ hn, by omega, ?_, ?_⟩
  · have hsz : a'.size b = g'.size b := by
      rw [Allocator.sizeOf, Nat.add_sub_cancel] at hsize
      exact hsize
    rw [Nat.add_sub_cancel, hsize, Allocator.footerOf, hsz]
    refine add64_eq ?_
    rw [headerSize]
    omega
  · rw [Nat.add_sub_cancel, hstop]
    rcases hob with hob | ⟨hob, hclear⟩
    · have hin := hc.tiles.mem hob
      exact .inl ⟨hin.1, hc.brk_eq hob ▸ hin.2⟩
    · exact .inr fun x h₁ h₂ => ⟨hclear x h₁ h₂, (hc.maps b hob).2.2.2 x h₁ h₂⟩

/-- A `deallocate` that succeeds gives back the block of its pointer. -/
theorem Inv.givesBack (hi : Inv a g) (hb : g.Used b)
    (h : a.deallocate k fuel (b + headerSize) = some (true, a')) :
    GivesBack a a' b (b + g.span b) := by
  have hc := hi.coherent
  rw [hc.deallocate_eq hb, deallocateBlock_used hi hb] at h
  cases release_cases hi hb h with
  | unmapped hbm hsb hbrk hmap hi' =>
      refine .unmapped (hc.maps b hbm).2.2.2 hmap hbrk fun x => ?_
      rw [hi'.coherent.freeAt_iff, hc.freeAt_iff]
      exact Iff.rfl
  | shrunk hbm hend hmap hbrk hi' =>
      have hf : g.isFree b = false := by
        rcases hb with hb | ⟨-, hf⟩
        · exact (hc.maps b hb).2.2.1
        · exact hf
      refine .shrunk ((hc.brk_eq hbm).trans hend.symm) hbrk hmap fun x => ?_
      rw [hi'.coherent.freeAt_iff, hc.freeAt_iff]
      exact Ghost.freeSpace_drop hc.blocks_nodup hf
  | @listed _ g' hbm _ hi' hk hsame =>
      have hf : g.isFree b = false := by
        rcases hb with hb | ⟨-, hf⟩
        · exact (hc.maps b hb).2.2.1
        · exact hf
      refine .listed hsame.2.2 fun x => ?_
      rw [hi'.coherent.freeAt_iff, hc.freeAt_iff,
        hk.freeSpace (hc.loosen hbm hf) hi'.coherent hsame]
      exact Ghost.freeSpace_loosen hbm

/-! ### Runs -/

namespace World

/-- The block of a pointer stays what it is until its pointer is taken back. -/
theorem run_keeps (r : system.Run w ss w') (hw : w.Ok g) (hb : g.Used b)
    (hn : ∀ s ∈ ss, s.NoWrap ∧ s.call ≠ .deallocate (b + headerSize)) :
    ∃ g', w'.Ok g' ∧ g'.Used b ∧ g'.size b = g.size b :=
  r.invariant_of (I := fun w => ∃ g', w.Ok g' ∧ g'.Used b ∧ g'.size b = g.size b)
    (fun ⟨_, hw, hb, hs⟩ hn ha h => by
      obtain ⟨g', hw', hk⟩ := step_keeps hw hn.1 ha h
      obtain ⟨hb', hs', -⟩ := hk b hb hn.2
      exact ⟨g', hw', hb', hs'.trans hs⟩) hn ⟨g, hw, hb, rfl⟩

end World

/-- **The size arithmetic.**  After each run without wrapping sizes: when `allocate` returns a
pointer for a request of `n` bytes, its header, its memory and its footer lie in memory that the
allocator obtained, and a later `deallocate` gives back exactly that region, if and only if
`n + overhead_size()` does not wrap. -/
theorem size_arithmetic_iff (r : World.system.Run (World.init k mem os) ss w)
    (hn : ∀ s ∈ ss, s.NoWrap) {k' : Kernel}
    (h : w.allocator.allocate k' fuel n = some (p, a')) (hp : p ≠ minusOne) :
    w.Safe a' p n ↔ n + overheadSize < 2 ^ 64 := by
  obtain ⟨g, hw⟩ := World.run_ok r hn
  constructor
  · rintro ⟨hplaced, -⟩
    have := hplaced.header
    have := hplaced.room
    have := hplaced.noWrap
    rw [headerSize] at *
    rw [show overheadSize = 40 from rfl]
    rw [footerSize] at *
    omega
  · intro hwrap
    rcases allocate_spec hw.inv hwrap h with ⟨rfl, -⟩ | ⟨c, g', rfl, -, hi, hk, hu, hnu, hle, hob⟩
    · exact absurd rfl hp
    · refine ⟨hi.placed hu hle hob, fun ss' w' r' hn' k'' fuel' a'' hd => ?_⟩
      obtain ⟨g'', hw', hu', hs⟩ := World.run_keeps r' (hw.grant hi hk hu hnu) hu hn'
      have hspan : g''.span c = g'.span c := by rw [Ghost.span, Ghost.span, hs]
      rw [Nat.add_sub_cancel, hi.coherent.stop_eq hu, ← hspan]
      exact hw'.inv.givesBack hu' hd

/-- 39 bytes are mapped for a block of `2 ^ 64 - 1`. -/
theorem size_arithmetic_fails : ∃ k a' p, p ≠ minusOne ∧
    (World.init k .zero sampleOs).allocator.allocate k 1 (2 ^ 64 - 1) = some (p, a') ∧
    ¬ (World.init k .zero sampleOs).Safe a' p (2 ^ 64 - 1) := by
  have h : ((World.init ⟨true, true, true, some 1048576⟩ .zero sampleOs).allocator.allocate
      ⟨true, true, true, some 1048576⟩ 1 (2 ^ 64 - 1)).map Prod.fst = some 1048600 := by
    decide +kernel
  obtain ⟨⟨p, a'⟩, h, rfl⟩ := Option.map_eq_some_iff.mp h
  refine ⟨_, a', 1048600, by decide, h, fun hsafe => ?_⟩
  have := hsafe.1.room
  have := hsafe.1.noWrap
  omega

theorem size_arithmetic_sample : ∃ (w : World) (a' : Allocator) (p : Nat), p ≠ minusOne ∧
    w.allocator.allocate ⟨true, true, true, none⟩ 9 100 = some (p, a') ∧
    (w.Safe a' p 100 ↔ 100 + overheadSize < 2 ^ 64) := by
  have h : ((World.system.replay (World.init ⟨true, true, true, none⟩ .zero sampleOs)
      sampleSteps).map fun w => (w.allocator.allocate ⟨true, true, true, none⟩ 9 100).map
        Prod.fst) = some (some 4120) := by
    decide +kernel
  obtain ⟨w, hw, h⟩ := Option.map_eq_some_iff.mp h
  obtain ⟨⟨p, a'⟩, h, rfl⟩ := Option.map_eq_some_iff.mp h
  exact ⟨w, a', 4120, by decide, h,
    size_arithmetic_iff (System.Run.of_replay hw) (by decide) h (by decide)⟩

end TieredAllocator.Old
