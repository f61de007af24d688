import TieredAllocator.Old.Requests

/-!
# Old design — the space of the free list

Which addresses lie in free blocks.  The blocks tile the segment, so these are the addresses that no
block in use covers; coalescing moves no block in use and so leaves them alone
(`Ghost.SameUse.freeSpace`), and a block that is given back adds its own (`Ghost.freeSpace_loosen`).
-/

namespace TieredAllocator.Old
open Lib

variable {a a' : Allocator} {g g' : Ghost} {loose loose' : Option Nat} {b c x prev : Nat}

namespace Ghost

/-- `x` lies in a free block. -/
def FreeSpace (g : Ghost) (x : Nat) : Prop :=
  ∃ b ∈ g.blocks, g.isFree b = true ∧ b ≤ x ∧ x < b + g.span b

theorem SameUse.symm (h : g.SameUse g') : g'.SameUse g :=
  fun b => ⟨(h b).1.symm, fun hb => ((h b).2 ((h b).1.mp hb)).symm⟩

/-- Where the same blocks are in use, a free address stays free. -/
theorem SameUse.freeSpace_mono (hk : g.SameUse g') (hc : Coherent a g loose)
    (hc' : Coherent a' g' loose') (hsame : SameHeap a a') (h : g.FreeSpace x) :
    g'.FreeSpace x := by
  obtain ⟨b, hb, hf, h₁, h₂⟩ := h
  obtain ⟨hlo, hhi⟩ := hc.tiles.mem hb
  have hlo' : a'.brkHeapStart ≤ x := hsame.1 ▸ hlo.trans h₁
  have hhi' : x < a'.brkHeapEnd := hsame.2.1 ▸ h₂.trans_le hhi
  obtain ⟨c, hcm, h₃, h₄⟩ := hc'.tiles.cover hlo' hhi'
  refine ⟨c, hcm, ?_, h₃, h₄⟩
  -- a block in use that covered `x` would overlap the free one
  by_contra hcf
  have hused : g.Used c := (hk c).1.mp (.inr ⟨hcm, Bool.not_eq_true _ ▸ hcf⟩)
  have hspan : g'.span c = g.span c := by
    rw [span, span, (hk c).2 hused]
  rcases hused with hmap | ⟨hblock, hnf⟩
  · have := hc.apart.maps b hb c hmap
    omega
  · have hne : b ≠ c := by
      rintro rfl
      rw [hf] at hnf
      cases hnf
    have := hc.apart.blocks b hb c hblock hne
    omega

theorem SameUse.freeSpace (hk : g.SameUse g') (hc : Coherent a g loose)
    (hc' : Coherent a' g' loose') (hsame : SameHeap a a') : g'.FreeSpace x ↔ g.FreeSpace x := by
  have hsame' : SameHeap a' a := ⟨hsame.1.symm, hsame.2.1.symm, hsame.2.2.symm⟩
  exact ⟨hk.symm.freeSpace_mono hc' hc hsame', hk.freeSpace_mono hc hc' hsame⟩

theorem freeSpace_loosen (hb : b ∈ g.blocks) :
    (g.loosen b).FreeSpace x ↔ g.FreeSpace x ∨ (b ≤ x ∧ x < b + g.span b) := by
  constructor
  · rintro ⟨c, hc, hf, hin⟩
    by_cases hcb : c = b
    · exact .inr (hcb ▸ hin)
    · refine .inl ⟨c, hc, ?_, hin⟩
      simpa [loosen, setIsFree, setNext, hcb] using hf
  · rintro (⟨c, hc, hf, hin⟩ | hin)
    · refine ⟨c, hc, ?_, hin⟩
      by_cases hcb : c = b
      · simp [loosen, setIsFree, setNext, hcb]
      · simpa [loosen, setIsFree, setNext, hcb] using hf
    · exact ⟨b, hb, by simp [loosen, setIsFree, setNext], hin⟩

theorem freeSpace_detach (hc : Coherent a g loose) (hb : b ∈ g.free) (prev : Nat) :
    g.FreeSpace x ↔ (g.detach prev b).FreeSpace x ∨ (b ≤ x ∧ x < b + g.span b) := by
  constructor
  · rintro ⟨c, hcm, hf, hin⟩
    by_cases hcb : c = b
    · exact .inr (hcb ▸ hin)
    · refine .inl ⟨c, hcm, ?_, hin⟩
      simpa [detach, hcb] using hf
  · rintro (⟨c, hcm, hf, hin⟩ | hin)
    · have hcb : c ≠ b := by
        rintro rfl
        simp [detach] at hf
      refine ⟨c, hcm, ?_, hin⟩
      simpa [detach, hcb] using hf
    · exact ⟨b, hc.mem_blocks hb, hc.isFree_of_mem hb, hin⟩

theorem freeSpace_drop (hnd : g.blocks.Nodup) (hf : g.isFree b = false) :
    (g.drop b).FreeSpace x ↔ g.FreeSpace x := by
  constructor
  · rintro ⟨c, hc, h⟩
    exact ⟨c, List.mem_of_mem_erase hc, h⟩
  · rintro ⟨c, hc, hcf, hin⟩
    have hcb : c ≠ b := by
      rintro rfl
      rw [hf] at hcf
      cases hcf
    exact ⟨c, hnd.mem_erase_iff.mpr ⟨hcb, hc⟩, hcf, hin⟩

end Ghost

/-- `x` lies in a block of the free list. -/
def Allocator.FreeAt (a : Allocator) (x : Nat) : Prop :=
  ∃ i, a.nthFree i ≠ 0 ∧ a.nthFree i ≤ x ∧
    x < a.nthFree i + (overheadSize + a.size (a.nthFree i))

theorem Coherent.freeAt_iff (hc : Coherent a g none) : a.FreeAt x ↔ g.FreeSpace x := by
  have hlist : a.FreeAt x ↔ ∃ b ∈ g.free, b ≤ x ∧ x < b + (overheadSize + a.size b) :=
    hc.exists_nthFree fun b => b ≤ x ∧ x < b + (overheadSize + a.size b)
  have hspan : ∀ b ∈ g.blocks, overheadSize + a.size b = g.span b := by
    intro b hb
    rw [hc.size_eq hb]
    rfl
  rw [hlist]
  constructor
  · rintro ⟨b, hb, h₁, h₂⟩
    rw [hspan b (hc.mem_blocks hb)] at h₂
    exact ⟨b, hc.mem_blocks hb, hc.isFree_of_mem hb, h₁, h₂⟩
  · rintro ⟨b, hb, hf, h₁, h₂⟩
    rw [← hspan b hb] at h₂
    exact ⟨b, (hc.onList b).mpr ⟨hb, hf, by simp⟩, h₁, h₂⟩

end TieredAllocator.Old
