import TieredAllocator.Old.Operations

/-!
# Old design — requests

`allocate`, `deallocate` and the constructor keep the invariant (`allocate_spec`, `release_spec`,
`deallocateBlock_spec`, `init_spec`).
-/

namespace TieredAllocator.Old
open Lib

variable {a a' : Allocator} {g : Ghost} {loose : Option Nat} {b c n p : Nat} {fuel : Nat} {r : Bool}
  {k : Kernel}

/-! ### The search -/

/-- `curr` is where the walk along the free list has come to, behind `prev`. -/
def At (g : Ghost) (prev curr : Nat) : Prop :=
  ∃ l₁ l₂, g.free = l₁ ++ l₂ ∧ prev = l₁.getLastD 0 ∧ Forward g.links (ptr curr) l₂

namespace Coherent

theorem at_head (hc : Coherent a g loose) : At g 0 a.freeList := ⟨[], g.free, rfl, rfl, hc.chain⟩

theorem at_next {prev curr : Nat} (hc : Coherent a g loose) (h : At g prev curr)
    (hcurr : curr ≠ 0) :
    curr ∈ g.free ∧ At g curr (a.next curr) := by
  obtain ⟨l₁, l₂, hl, rfl, hf⟩ := h
  cases l₂ with
  | nil => exact absurd (ptr_eq_none.mp hf) hcurr
  | cons y l₂ =>
      obtain ⟨rfl, -⟩ := ptr_eq_some.mp hf.1
      have hmem : curr ∈ g.free := by simp [hl]
      refine ⟨hmem, l₁ ++ [curr], l₂, by simp [hl], by simp, ?_⟩
      rw [hc.next_eq (hc.mem_blocks hmem)]
      exact hf.2

theorem at_split {prev curr : Nat} (h : At g prev curr) (hcurr : curr ≠ 0) :
    ∃ l₁ l₂, g.free = l₁ ++ curr :: l₂ ∧ prev = l₁.getLastD 0 := by
  obtain ⟨l₁, l₂, hl, hprev, hf⟩ := h
  cases l₂ with
  | nil => exact absurd (ptr_eq_none.mp hf) hcurr
  | cons y l₂ =>
      obtain ⟨rfl, -⟩ := ptr_eq_some.mp hf.1
      exact ⟨l₁, l₂, hl, hprev⟩

/-- A block that the search finds is large enough, and `prev` stands before it on the list. -/
theorem search_spec {prev curr : Nat} (hc : Coherent a g loose) (hat : At g prev curr)
    (h : a.search n fuel prev curr = some (some (p, c))) :
    n ≤ g.size c ∧ ∃ l₁ l₂, g.free = l₁ ++ c :: l₂ ∧ p = l₁.getLastD 0 := by
  induction fuel generalizing prev curr with
  | zero => cases h
  | succ fuel ih =>
      rw [Allocator.search] at h
      split at h
      · cases h
      · rename_i hcurr
        split at h
        · rename_i hfit
          obtain ⟨rfl, rfl⟩ := Prod.mk.inj (Option.some.inj (Option.some.inj h))
          refine ⟨?_, at_split hat hcurr⟩
          rw [← hc.size_eq (hc.mem_blocks (hc.at_next hat hcurr).1)]
          exact hfit.2
        · split at h
          · exact ih hc.at_head h
          · split at h
            · cases h
            · exact ih (hc.at_next hat hcurr).2 h

theorem findFit_spec (hc : Coherent a g loose) (h : a.findFit fuel n = some (some (p, c))) :
    n ≤ g.size c ∧ ∃ l₁ l₂, g.free = l₁ ++ c :: l₂ ∧ p = l₁.getLastD 0 := by
  rw [Allocator.findFit] at h
  split at h
  · split at h
    · rename_i hcur
      obtain ⟨l₁, l₂, hl⟩ := List.append_of_mem (hc.cursor.resolve_left hcur.1)
      have hmem : a.prevSearchEnd ∈ g.free := by simp [hl]
      refine hc.search_spec ⟨l₁ ++ [a.prevSearchEnd], l₂, by simp [hl], by simp, ?_⟩ h
      rw [hc.next_eq (hc.mem_blocks hmem)]
      exact (hl ▸ hc.chain).rest
    · exact hc.search_spec hc.at_head h
  · cases h

end Coherent

/-! ### Taking a block -/

/-- `curr` leaves the list, behind `prev`, for the client. -/
def Allocator.pop (a : Allocator) (prev curr : Nat) : Allocator :=
  { ((if prev = 0 then a else a.setNext prev (a.next curr)).setNext curr 0).setIsFree curr
      false with
    freeList := if prev = 0 then a.next curr else a.freeList
    prevSearchEnd := prev }

theorem take_eq (a : Allocator) (n prev curr : Nat) :
    a.take n prev curr = (curr + headerSize,
      { (a.split curr n).2.pop prev curr with
        availableBytes := sub64 (a.split curr n).2.availableBytes
          (((a.split curr n).2.pop prev curr).size curr) }) := by
  rw [Allocator.take]
  generalize a.split curr n = s
  obtain ⟨ok, a₁⟩ := s
  by_cases h0 : prev = 0
  · simp [h0, Allocator.pop, Allocator.setNext, Allocator.setIsFree, Allocator.size]
  · simp [h0, Allocator.pop, Allocator.setNext, Allocator.setIsFree, Allocator.size]

namespace Coherent

theorem pop {l₁ l₂ : List Nat} (hc : Coherent a g none) (hl : g.free = l₁ ++ c :: l₂) :
    Coherent (a.pop (l₁.getLastD 0) c) (g.detach (l₁.getLastD 0) c) none := by
  have hcm := hc.mem_blocks (b := c) (by simp [hl])
  have hprev := hc.prev_cases hl
  refine hc.detach hl (hc.holding_detach hcm (hprev.imp_right And.right)).2 ?_ ?_ ?_ ?_ ?_
  · rw [Allocator.pop, hc.next_eq hcm]
  · rw [Allocator.pop]
    split <;> rfl
  · rw [Allocator.pop]
    split <;> rfl
  · rw [Allocator.pop]
    split <;> rfl
  · exact hprev.imp id fun h => List.mem_append_left _ h.1

end Coherent

/-- The allocator after a split that leaves a remainder. -/
theorem split_eq (hc : Coherent a g loose) (hcm : c ∈ g.blocks) (hn : n + 40 < g.size c) :
    ∃ a₁, a.SameRegs a₁ ∧ a.split c n =
        (true, { a₁ with availableBytes := sub64 a.availableBytes overheadSize }) ∧
      ∀ l₁ l₂ f₁ f₂, g.blocks = l₁ ++ c :: l₂ →
        Holding a₁.mem (g.split c n (c + (40 + n)) l₁ l₂ f₁ f₂) := by
  have hlt := hc.lt hcm
  have hpos := hc.pos hcm
  have hroom : add64 (add64 n overheadSize) 1 = n + 40 + 1 := by
    rw [show overheadSize = 40 from rfl, add64_eq (a := n) (by omega), add64_eq (by omega)]
  have hcn : c + 40 + n < 2 ^ 64 := by omega
  have hx := Allocator.resize_holds (hc.holding.blocks c hcm) hcn
  have hend : (a.resize c n).blockEnd c = c + (40 + n) := hx.blockEnd_eq hcn
  have hrest : sub64 (sub64 (g.size c) n) overheadSize = g.size c - n - 40 := by
    rw [show overheadSize = 40 from rfl, sub64_eq (a := g.size c) (by omega) (by omega),
      sub64_eq (by omega) (by omega)]
  have hregs := ((a.sameRegs_resize c n).trans (Allocator.sameRegs_format _ (c + (40 + n))
    (g.size c - n - 40) true false (g.next c))).trans
    (Allocator.sameRegs_setNext _ c (c + (40 + n)))
  refine ⟨_, hregs, ?_, fun l₁ l₂ f₁ f₂ hl => hc.holding_split hl hn⟩
  rw [Allocator.split, if_neg (by rw [hc.size_eq hcm]; omega), hc.size_eq hcm, hroom,
    if_neg (by omega)]
  simp only [hend, hrest, hc.mapped_eq hcm, hc.next_eq hcm, ← Allocator.format_def,
    ← Allocator.resize_def, congrArg Allocator.availableBytes hregs]

theorem split_small (hc : Coherent a g loose) (hcm : c ∈ g.blocks) (hn : n ≤ g.size c)
    (hfit : ¬ n + 40 < g.size c) : a.split c n = (false, a) := by
  have hlt := hc.lt hcm
  have hpos := hc.pos hcm
  have hroom : a.size c < add64 (add64 n overheadSize) 1 := by
    rw [hc.size_eq hcm, show overheadSize = 40 from rfl, add64_eq (a := n) (by omega),
      add64_eq (by omega)]
    omega
  rw [Allocator.split, if_neg (by rw [hc.size_eq hcm]; omega), if_pos hroom]

theorem split_os (hc : Coherent a g loose) (hcm : c ∈ g.blocks) (hn : n ≤ g.size c) :
    (a.split c n).2.os = a.os := by
  by_cases hfit : n + 40 < g.size c
  · obtain ⟨a₁, hregs, heq, -⟩ := split_eq hc hcm hfit
    have hos : a₁.os = a.os := by
      rw [hregs]
    simp only [heq, hos]
  · rw [split_small hc hcm hn hfit]

theorem take_os (hc : Coherent a g loose) (hcm : c ∈ g.blocks) (hn : n ≤ g.size c) (p : Nat) :
    (a.take n p c).2.os = a.os := by
  have hpop : ∀ x : Allocator, (x.pop p c).os = x.os := by
    intro x
    rw [Allocator.pop]
    split <;> rfl
  simp only [take_eq, hpop, split_os hc hcm hn]

/-- What is left of a block is a block of its own, if it has room for a header, a footer and a
byte. -/
theorem split_spec {f₁ f₂ : List Nat} (hi : Inv a g) (hl : g.free = f₁ ++ c :: f₂)
    (hn : n ≤ g.size c) :
    ∃ g' f₂', Coherent (a.split c n).2 g' none ∧ g'.Separate [c] ∧
      (a.split c n).2.availableBytes = g'.freeBytes ∧ g'.free = f₁ ++ c :: f₂' ∧ g.Keeps g' ∧
      n ≤ g'.size c ∧ c ∈ g'.blocks := by
  obtain ⟨hc, hsep, hbytes⟩ := hi
  have hcf : c ∈ g.free := by simp [hl]
  have hcm := hc.mem_blocks hcf
  have hlt := hc.lt hcm
  have hpos := hc.pos hcm
  by_cases hfit : n + 40 < g.size c
  · obtain ⟨a₁, hregs, heq, hmem⟩ := split_eq hc hcm hfit
    obtain ⟨l₁, l₂, hbl⟩ := List.append_of_mem hcm
    obtain ⟨hrb, hrm⟩ := hc.not_mem_of_inside (c := c + (40 + n)) hcm (by omega)
      (by rw [Ghost.span]; omega)
    have hcs := hc.split hbl hl hfit rfl (hmem l₁ l₂ f₁ f₂ hbl) (by simp)
    rw [← hregs] at hcs
    have hsum : (g.split c n (c + (40 + n)) l₁ l₂ f₁ f₂).freeBytes + 40 = g.freeBytes :=
      Ghost.freeBytes_split hc.nodup hl (fun h => hrb (hc.mem_blocks h)) hfit
    have hlim := hc.limit
    have hle := hc.freeBytes_le (fun x hx => by cases hx)
    rw [heq]
    refine ⟨_, f₂.cons (c + (40 + n)), hcs.setBytes _, ?_, ?_, rfl, ?_, ?_, ?_⟩
    · exact Ghost.Separate.split hc hsep hbl (hc.isFree_of_mem hcf) hfit rfl
    · show sub64 a.availableBytes overheadSize = _
      rw [show overheadSize = 40 from rfl, sub64_eq (by omega) (by omega)]
      omega
    · -- neither `c` nor the remainder is in use
      have hne : ∀ x, g.Used x → x ≠ c ∧ x ≠ c + (40 + n) := by
        rintro x (hx | ⟨hx, hf⟩)
        · exact ⟨hc.apart.ne hcm hx, fun h => hrm (h ▸ hx)⟩
        · refine ⟨?_, fun h => hrb (h ▸ hx)⟩
          rintro rfl
          rw [hc.isFree_of_mem hcf] at hf
          cases hf
      intro x hx
      obtain ⟨hxc, hxr⟩ := hne x hx
      refine ⟨?_, by simp [Ghost.split, hxc, hxr]⟩
      rcases hx with hx | ⟨hx, hf⟩
      · exact .inl hx
      · refine .inr ⟨?_, by simpa [Ghost.split, hxr] using hf⟩
        show x ∈ l₁ ++ c :: (c + (40 + n)) :: l₂
        rw [hbl] at hx
        simpa [hxc, hxr] using hx
    · simp [Ghost.split]
    · simp [Ghost.split]
  · rw [split_small hc hcm hn hfit]
    exact ⟨g, f₂, hc, fun x hx y hy hxy hfx hfy =>
      absurd (hsep x hx y hy hxy hfx hfy) List.not_mem_nil, hbytes, hl, .refl g, hn, hcm⟩

/-- What is free is not in use. -/
theorem Coherent.not_used (hc : Coherent a g loose) (hb : b ∈ g.free) : ¬ g.Used b := by
  have hf := hc.isFree_of_mem hb
  rintro (h | ⟨-, h⟩)
  · exact hc.not_mem_maps hf h
  · rw [hf] at h
    cases h

theorem take_spec {f₁ f₂ : List Nat} (hi : Inv a g) (hl : g.free = f₁ ++ c :: f₂)
    (hn : n ≤ g.size c) :
    ∃ g', Inv (a.take n (f₁.getLastD 0) c).2 g' ∧ g.Keeps g' ∧ c ∈ g'.blocks ∧ g'.Used c ∧
      ¬ g.Used c ∧ n ≤ g'.size c := by
  have hnot := hi.coherent.not_used (b := c) (by simp [hl])
  obtain ⟨g₁, f₂', hc₁, hsep₁, hbytes₁, hl₁, hk₁, hn₁, hcm₁⟩ := split_spec hi hl hn
  have hcf₁ : c ∈ g₁.free := by simp [hl₁]
  rw [take_eq]
  generalize (a.split c n).2 = a₁ at *
  have hc₂ := hc₁.pop hl₁
  have hsum := Ghost.freeBytes_detach hcf₁ (f₁.getLastD 0)
  have hsize : (a₁.pop (f₁.getLastD 0) c).size c = g₁.size c := hc₂.size_eq hcm₁
  have hle := hc₁.freeBytes_le fun x hx => by cases hx
  have hlim := hc₁.limit
  refine ⟨_, ⟨hc₂.setBytes _, fun x hx y hy hxy hfx hfy => ?_, ?_⟩,
    hk₁.trans (hc₁.used_detach hcf₁ _), hcm₁, .inr ⟨hcm₁, ?_⟩, hnot, hn₁⟩
  · -- only `c` was next to a free block, and it is free no more
    have := hsep₁.detach (f₁.getLastD 0) c x hx y hy hxy hfx hfy
    obtain rfl := List.mem_singleton.mp this
    simp [Ghost.detach] at hfx
  · show sub64 a₁.availableBytes ((a₁.pop (f₁.getLastD 0) c).size c) = _
    rw [hsize, hbytes₁, hsum, sub64_eq (by omega) (by omega)]
    omega
  · simp [Ghost.detach]

/-! ### New blocks -/

namespace Os

variable {os os' : Os} {start : Nat}

theorem clear_iff : os.clear start n = true ↔
    start + n ≤ addressLimit ∧ ∀ x, start ≤ x → x < start + n → os.mapped x = false := by
  rw [clear, Bool.and_eq_true, decide_eq_true_eq, List.all_eq_true]
  refine and_congr_right fun _ => ⟨fun h x h₁ h₂ => ?_, fun h i hi => ?_⟩
  · have := h (x - start) (List.mem_range.mpr (by omega))
    rw [show start + (x - start) = x by omega] at this
    simpa using this
  · rw [h (start + i) (by omega) (by have := List.mem_range.mp hi; omega)]
    rfl

/-- `sbrk` returns the old break, and the new memory is clear. -/
theorem sbrk_spec (h : os.sbrk k n = (some start, os')) :
    start = os.brk ∧ os'.startBrk = os.startBrk ∧ os'.mapped = os.mapped ∧
      os'.brk = os.brk + n ∧ os.brk + n ≤ addressLimit ∧
      ∀ x, os.brk ≤ x → x < os.brk + n → os.mapped x = false := by
  have htop : ((os.brk : Int) + (n : Int)).toNat = os.brk + n := by omega
  have hle : os.startBrk ≤ os.brk + n := by
    have := os.startBrk_le
    omega
  simp only [sbrk, htop, hle, dif_pos] at h
  split at h
  · rename_i hgrant
    obtain ⟨hstart, rfl⟩ := Prod.mk.inj h
    obtain ⟨hlim, hclear⟩ := clear_iff.mp (Bool.and_eq_true_iff.mp hgrant).2
    rw [show os.brk + (os.brk + n - os.brk) = os.brk + n by omega] at hlim hclear
    exact ⟨(Option.some.inj hstart).symm, rfl, rfl, rfl, hlim, hclear⟩
  · cases (Prod.mk.inj h).1

theorem sbrk_none (h : os.sbrk k n = (none, os')) : os' = os := by
  simp only [sbrk] at h
  split at h
  · split at h
    · cases (Prod.mk.inj h).1
    · exact (Prod.mk.inj h).2.symm
  · exact (Prod.mk.inj h).2.symm

theorem mmap_spec (h : os.mmap k n = (some start, os')) :
    0 < start ∧ start + n ≤ addressLimit ∧
      (∀ x, start ≤ x → x < start + n → os.mapped x = false) ∧
      (start + n ≤ os.startBrk ∨ os.brk ≤ start) ∧ os'.startBrk = os.startBrk ∧
      os'.brk = os.brk ∧
      ∀ x, os'.mapped x = true ↔ (start ≤ x ∧ x < start + n) ∨ os.mapped x = true := by
  rw [mmap] at h
  split at h
  · cases (Prod.mk.inj h).1
  · split at h
    · rename_i hok
      obtain ⟨hstart, rfl⟩ := Prod.mk.inj h
      obtain rfl := Option.some.inj hstart
      simp only [Bool.and_eq_true, decide_eq_true_eq, Bool.not_eq_true', meetsSegment,
        Bool.and_eq_false_iff, decide_eq_false_iff_not] at hok
      obtain ⟨⟨⟨-, hpos⟩, hclear⟩, hseg⟩ := hok
      obtain ⟨hlim, hclear⟩ := clear_iff.mp hclear
      exact ⟨hpos, hlim, hclear, by omega, rfl, rfl, fun x => by simp⟩
    · cases (Prod.mk.inj h).1

theorem mmap_none (h : os.mmap k n = (none, os')) : os' = os := by
  rw [mmap] at h
  split at h
  · exact (Prod.mk.inj h).2.symm
  · split at h
    · cases (Prod.mk.inj h).1
    · exact (Prod.mk.inj h).2.symm

theorem munmap_spec {ok : Bool} (h : os.munmap k start n = (ok, os')) :
    (ok = true ∧ os'.startBrk = os.startBrk ∧ os'.brk = os.brk ∧
      ∀ x, os'.mapped x = true ↔ ¬ (start ≤ x ∧ x < start + n) ∧ os.mapped x = true) ∨
      (ok = false ∧ os' = os) := by
  rw [munmap] at h
  split at h
  · obtain ⟨rfl, rfl⟩ := Prod.mk.inj h
    refine .inl ⟨rfl, rfl, rfl, fun x => ?_⟩
    simp only [Bool.and_eq_true, Bool.not_eq_true', Bool.and_eq_false_iff, decide_eq_false_iff_not]
    refine and_congr_left fun _ => ?_
    omega
  · obtain ⟨rfl, rfl⟩ := Prod.mk.inj h
    exact .inr ⟨rfl, rfl⟩

theorem setBrk_spec {ok : Bool} {top : Nat} (h : os.setBrk k top = (ok, os')) :
    (ok = true ∧ os'.startBrk = os.startBrk ∧ os'.mapped = os.mapped ∧ os'.brk = top) ∨
      (ok = false ∧ os' = os) := by
  rw [setBrk] at h
  split at h
  · split at h
    · obtain ⟨rfl, rfl⟩ := Prod.mk.inj h
      exact .inl ⟨rfl, rfl, rfl, rfl⟩
    · obtain ⟨rfl, rfl⟩ := Prod.mk.inj h
      exact .inr ⟨rfl, rfl⟩
  · obtain ⟨rfl, rfl⟩ := Prod.mk.inj h
    exact .inr ⟨rfl, rfl⟩

end Os

theorem toIntptr_of_lt (h : n < 2 ^ 63) : toIntptr n = n := if_pos h

/-- The new block of the segment starts at the old break. -/
theorem Coherent.le_brk (hc : Coherent a g none) (hb : b ∈ g.blocks) : b + g.span b ≤ a.os.brk := by
  have h := (hc.tiles.mem hb).2
  rcases hc.end_eq with ⟨-, -, hnil⟩ | ⟨-, hend⟩
  · simp [hnil] at hb
  · omega

/-- A new block at the end of the segment, free or not, or no change. -/
theorem createBlock_brk {f : Bool} (hc : Coherent a g none) (hn : n + 40 < 2 ^ 63)
    (h : a.createBlock k n f false 0 = (b, a')) :
    (b = 0 ∧ a' = a) ∨
      (0 < b ∧ b = a.os.brk ∧ Coherent a' (g.extend b n f) (if f then some b else none) ∧
        a'.availableBytes = a.availableBytes ∧ a'.freeList = a.freeList) := by
  rw [Allocator.createBlock] at h
  simp only [Bool.false_eq_true, if_false, show overheadSize = 40 from rfl,
    add64_eq (show n + 40 < 2 ^ 64 by omega), toIntptr_of_lt hn] at h
  cases hs : a.os.sbrk k ((n + 40 : Nat) : Int) with
  | mk ok os =>
      cases ok with
      | none =>
          simp only [hs, Os.sbrk_none hs] at h
          obtain ⟨rfl, rfl⟩ := Prod.mk.inj h
          exact .inl ⟨rfl, rfl⟩
      | some start =>
          obtain ⟨hstart, hsb, hmap, hbrk, hlim, hclear⟩ := Os.sbrk_spec hs
          have hlt : start + 40 + n < 2 ^ 64 := by
            rw [Os.addressLimit] at hlim
            omega
          obtain ⟨m, hfmt, hx, hfr⟩ := Allocator.format_spec (a := { a with os := os }) (f := f)
            (g := false) hlt (show 0 < 2 ^ 64 by decide)
          simp only [hs, ← Allocator.format_def, hfmt] at h
          have hfinal : ∀ s, s = (if a.brkHeapStart = 0 then start else a.brkHeapStart) →
              Coherent { a with
                mem := m, os := os, brkHeapStart := s, brkHeapEnd := start + (40 + n) }
                (g.extend start n f) (if f then some start else none) := fun s hs =>
            hc.extend hstart hlt hs rfl (fun x h₁ h₂ => hclear x (by omega) (by omega)) hsb hmap
              (by omega) hx hfr
          have hend : ∀ s, Allocator.blockEnd
              { a with mem := m, os := os, brkHeapStart := s } start = start + (40 + n) := fun s =>
            Holds.blockEnd_eq (a := { a with mem := m, os := os, brkHeapStart := s }) hx hlt
          have hpos : 0 < start := by
            have := a.os.startBrk_pos
            have := a.os.startBrk_le
            omega
          by_cases hzero : a.brkHeapStart = 0
          · simp only [hzero, if_true, hend] at h
            obtain ⟨rfl, rfl⟩ := Prod.mk.inj h
            exact .inr ⟨hpos, hstart, hfinal _ (by rw [if_pos hzero]), rfl, rfl⟩
          · simp only [hzero, if_false, hend a.brkHeapStart] at h
            obtain ⟨rfl, rfl⟩ := Prod.mk.inj h
            exact .inr ⟨hpos, hstart, hfinal _ (by rw [if_neg hzero]), rfl, rfl⟩

/-- A new block outside the segment, or no change. -/
theorem createBlock_mmap (hc : Coherent a g none) (hn : n + 40 < 2 ^ 64)
    (h : a.createBlock k n false true 0 = (b, a')) :
    (b = 0 ∧ a' = a) ∨
      (0 < b ∧ b + 40 + n < 2 ^ 64 ∧ (∀ x, b ≤ x → x < b + 40 + n → a.os.mapped x = false) ∧
        (b + 40 + n ≤ a.os.startBrk ∨ a.os.brk ≤ b) ∧ Coherent a' (g.mapBlock b n) none ∧
        a'.availableBytes = a.availableBytes) := by
  rw [Allocator.createBlock] at h
  simp only [if_true, show overheadSize = 40 from rfl, add64_eq hn] at h
  cases hs : a.os.mmap k (n + 40) with
  | mk ok os =>
      cases ok with
      | none =>
          simp only [hs, Os.mmap_none hs] at h
          obtain ⟨rfl, rfl⟩ := Prod.mk.inj h
          exact .inl ⟨rfl, rfl⟩
      | some start =>
          obtain ⟨hpos, hlim, hclear, hseg, hsb, hbrk, hmap⟩ := Os.mmap_spec hs
          have hlt : start + 40 + n < 2 ^ 64 := by
            rw [Os.addressLimit] at hlim
            omega
          have hspan : start + (n + 40) = start + 40 + n := by omega
          rw [hspan] at hclear hseg
          simp only [hspan] at hmap
          obtain ⟨m, hfmt, hx, hfr⟩ := Allocator.format_spec (a := { a with os := os })
            (f := false) (g := true) hlt (show 0 < 2 ^ 64 by decide)
          simp only [hs, ← Allocator.format_def, hfmt] at h
          obtain ⟨rfl, rfl⟩ := Prod.mk.inj h
          exact .inr ⟨hpos, hlt, hclear, hseg,
            hc.mapBlock hpos hlt hclear hseg hsb hbrk hmap hx hfr, rfl⟩

/-! ### The public operations -/

theorem Coherent.used_lt (hc : Coherent a g loose) (hb : g.Used b) :
    0 < b ∧ b + 40 + g.size b < 2 ^ 64 := by
  rcases hb with h | ⟨h, -⟩
  · obtain ⟨h₁, h₂, -⟩ := hc.maps b h
    rw [Ghost.span] at h₂
    exact ⟨h₁, by omega⟩
  · exact ⟨hc.pos h, hc.lt h⟩

/-- Blocks in use do not overlap. -/
theorem Coherent.used_apart (hc : Coherent a g loose) (hb : g.Used b) (hc' : g.Used c)
    (hne : b ≠ c) : b + g.span b ≤ c ∨ c + g.span c ≤ b := by
  rcases hb with hb | ⟨hb, -⟩ <;> rcases hc' with hc' | ⟨hc', -⟩
  · have hsymm : Std.Symm fun b c => b + g.span b ≤ c ∨ c + g.span c ≤ b := ⟨fun _ _ => Or.symm⟩
    exact hc.mapsApart.forall hb hc' hne
  · exact (hc.apart.maps c hc' b hb).symm
  · exact hc.apart.maps b hb c hc'
  · exact hc.apart.blocks b hb c hc' hne

theorem Inv.extend {a₁ : Allocator} (hi : Inv a g) (hb : b = a.os.brk)
    (hc : Coherent a₁ (g.extend b n false) none) (hbytes : a₁.availableBytes = a.availableBytes) :
    Inv a₁ (g.extend b n false) ∧ g.Keeps (g.extend b n false) ∧ (g.extend b n false).Used b ∧
      ¬ g.Used b := by
  have hold : ∀ x ∈ g.blocks, x ≠ b := by
    rintro x hx rfl
    have := hi.coherent.le_brk hx
    have := g.span_pos x
    omega
  have hbm : b ∈ (g.extend b n false).blocks := by simp [Ghost.extend]
  have hmaps : ∀ x ∈ g.maps, x ≠ b := fun x hx => hc.apart.ne hbm hx
  have hbfree : (g.extend b n false).isFree b = false := by simp [Ghost.extend]
  refine ⟨⟨hc, fun x hx y hy hxy hfx hfy => ?_, ?_⟩, ?_, .inr ⟨hbm, hbfree⟩, ?_⟩
  · have hne : ∀ z, (g.extend b n false).isFree z = true → z ≠ b := by
      rintro z hz rfl
      rw [hbfree] at hz
      cases hz
    have hmem : ∀ z ∈ (g.extend b n false).blocks, z ≠ b → z ∈ g.blocks := by
      intro z hz hzb
      simpa [Ghost.extend, hzb] using hz
    have hxb := hne x hfx
    have hyb := hne y hfy
    refine hi.separate x (hmem x hx hxb) y (hmem y hy hyb) ?_ ?_ ?_
    · simpa [Ghost.span, Ghost.extend, hxb] using hxy
    · simpa [Ghost.extend, hxb] using hfx
    · simpa [Ghost.extend, hyb] using hfy
  · rw [hbytes, hi.bytes]
    exact (Ghost.sum_update_of_not_mem fun h => hold b (hi.coherent.mem_blocks h) rfl).symm
  · rintro x (hx | ⟨hx, hf⟩)
    · exact ⟨.inl hx, by simp [Ghost.extend, hmaps x hx]⟩
    · refine ⟨.inr ⟨List.mem_append_left _ hx, ?_⟩, ?_⟩ <;> simp [Ghost.extend, hold x hx, hf]
  · rintro (h | ⟨h, -⟩)
    · exact hmaps b h rfl
    · exact hold b h rfl

theorem Inv.mapBlock {a₁ : Allocator} (hi : Inv a g)
    (hc : Coherent a₁ (g.mapBlock b n) none) (hbytes : a₁.availableBytes = a.availableBytes) :
    Inv a₁ (g.mapBlock b n) ∧ g.Keeps (g.mapBlock b n) ∧ (g.mapBlock b n).Used b ∧
      ¬ g.Used b := by
  have hbm : b ∈ (g.mapBlock b n).maps := List.mem_cons_self
  have hold : ∀ x ∈ g.blocks, x ≠ b := fun x hx => (hc.apart.ne hx hbm).symm
  have hmaps : ∀ x ∈ g.maps, x ≠ b := by
    rintro x hx rfl
    have := (List.pairwise_cons.mp hc.mapsApart).1 x hx
    have := (g.mapBlock x n).span_pos x
    omega
  refine ⟨⟨hc, fun x hx y hy hxy hfx hfy => ?_, ?_⟩, ?_, .inl hbm, ?_⟩
  · have hxb := hold x hx
    have hyb := hold y hy
    refine hi.separate x hx y hy ?_ ?_ ?_
    · simpa [Ghost.span, Ghost.mapBlock, hxb] using hxy
    · simpa [Ghost.mapBlock, hxb] using hfx
    · simpa [Ghost.mapBlock, hyb] using hfy
  · rw [hbytes, hi.bytes]
    exact (Ghost.sum_update_of_not_mem fun h => hold b (hi.coherent.mem_blocks h) rfl).symm
  · rintro x (hx | ⟨hx, hf⟩)
    · exact ⟨.inl (List.mem_cons_of_mem _ hx), by simp [Ghost.mapBlock, hmaps x hx]⟩
    · refine ⟨.inr ⟨hx, ?_⟩, ?_⟩ <;> simp [Ghost.mapBlock, hold x hx, hf]
  · rintro (h | ⟨h, -⟩)
    · exact hmaps b h rfl
    · exact hold b h rfl

/-- The block `c` lies in the segment, or where nothing was mapped before. -/
def Obtained (os : Os) (g' : Ghost) (c : Nat) : Prop :=
  c ∈ g'.blocks ∨ (c ∈ g'.maps ∧ ∀ x, c ≤ x → x < c + g'.span c → os.mapped x = false)

/-- `allocate` hands out a block that was not in use, of the size asked for at least. -/
theorem allocate_spec (hi : Inv a g) (hn : n + 40 < 2 ^ 64)
    (h : a.allocate k fuel n = some (p, a')) :
    (p = minusOne ∧ Inv a' g) ∨
      ∃ c g', p = c + headerSize ∧ p ≠ minusOne ∧ Inv a' g' ∧ g.Keeps g' ∧ g'.Used c ∧
        ¬ g.Used c ∧ n ≤ g'.size c ∧ Obtained a.os g' c := by
  have hne : ∀ {a₁ : Allocator} {g' : Ghost} {c : Nat}, Inv a₁ g' → g'.Used c →
      c + headerSize ≠ minusOne := by
    intro a₁ g' c hi' hu
    have := hi'.coherent.used_lt hu
    rw [headerSize, minusOne]
    omega
  rw [Allocator.allocate] at h
  obtain ⟨found, hfound, hrest⟩ := Option.bind_eq_some_iff.mp h
  cases found with
  | some pc =>
      obtain ⟨prev, c⟩ := pc
      obtain ⟨hn, l₁, l₂, hl, rfl⟩ := hi.coherent.findFit_spec hfound
      obtain ⟨g', hi', hk, hcm, hu, hnu, hle⟩ := take_spec hi hl hn
      have heq := Option.some.inj hrest
      have hp : p = c + headerSize := by
        rw [take_eq] at heq
        exact (Prod.mk.inj heq).1.symm
      rw [show a' = (a.take n (l₁.getLastD 0) c).2 by rw [heq]]
      exact .inr ⟨c, g', hp, hp ▸ hne hi' hu, hi', hk, hu, hnu, hle, .inl hcm⟩
  | none =>
      cases hcreate : a.createBlock k n false (decide (mmapThreshold ≤ n)) 0 with
      | mk b a₁ =>
          replace hrest : (if b = 0 then some (minusOne, a₁) else some (b + headerSize, a₁)) =
              some (p, a') := by
            simpa only [hcreate] using hrest
          have hcases : (b = 0 ∧ a₁ = a) ∨ (b ≠ 0 ∧ ∃ g', Inv a₁ g' ∧ g.Keeps g' ∧ g'.Used b ∧
              ¬ g.Used b ∧ g'.size b = n ∧ Obtained a.os g' b) := by
            by_cases hbig : mmapThreshold ≤ n
            · rw [decide_eq_true hbig] at hcreate
              rcases createBlock_mmap hi.coherent hn hcreate with h | ⟨hpos, -, hclear, -, hc, hb⟩
              · exact .inl h
              · obtain ⟨h₁, h₂, h₃, h₄⟩ := hi.mapBlock hc hb
                have hsize : (g.mapBlock b n).size b = n := by simp [Ghost.mapBlock]
                refine .inr ⟨by omega, _, h₁, h₂, h₃, h₄, hsize,
                  .inr ⟨List.mem_cons_self, fun x hx hlt => hclear x hx ?_⟩⟩
                rw [Ghost.span, hsize] at hlt
                omega
            · rw [decide_eq_false hbig] at hcreate
              have hsmall : n < 400 := by
                rw [mmapThreshold] at hbig
                omega
              rcases createBlock_brk hi.coherent (by omega) hcreate with
                h | ⟨hpos, hb, hc, hbytes, -⟩
              · exact .inl h
              · obtain ⟨h₁, h₂, h₃, h₄⟩ := hi.extend hb hc hbytes
                exact .inr ⟨by omega, _, h₁, h₂, h₃, h₄, by simp [Ghost.extend],
                  .inl (by simp [Ghost.extend])⟩
          rcases hcases with ⟨rfl, rfl⟩ | ⟨hb, g', hi', hk, hu, hnu, hsize, hob⟩
          · rw [if_pos rfl] at hrest
            obtain ⟨rfl, rfl⟩ := Prod.mk.inj (Option.some.inj hrest)
            exact .inl ⟨rfl, hi⟩
          · rw [if_neg hb] at hrest
            obtain ⟨rfl, rfl⟩ := Prod.mk.inj (Option.some.inj hrest)
            exact .inr ⟨b, g', rfl, hne hi' hu, hi', hk, hu, hnu, hsize.ge, hob⟩

theorem Inv.drop {os : Os} (hi : Inv a g) (hb : b ∈ g.blocks) (hf : g.isFree b = false)
    (hend : b + g.span b = a.brkHeapEnd) (hsb : os.startBrk = a.os.startBrk)
    (hmap : os.mapped = a.os.mapped) (hbrk : os.brk = b) :
    Inv { a with os := os, brkHeapEnd := b } (g.drop b) where
  coherent := hi.coherent.drop hb hf hend hsb hmap hbrk
  separate x hx y hy := hi.separate x (List.mem_of_mem_erase hx) y (List.mem_of_mem_erase hy)
  bytes := hi.bytes

theorem Inv.unmap {os : Os} (hi : Inv a g) (hb : b ∈ g.maps) (hsb : os.startBrk = a.os.startBrk)
    (hbrk : os.brk = a.os.brk)
    (hmap : ∀ x, os.mapped x = true ↔ ¬ (b ≤ x ∧ x < b + g.span b) ∧ a.os.mapped x = true) :
    Inv { a with os := os } (g.unmap b) :=
  ⟨hi.coherent.unmap hb hsb hbrk hmap, hi.separate, hi.bytes⟩

/-- The blocks in use other than `b` are what they were; `b` too, if `r` says that it was kept. -/
def KeepsBut (g g' : Ghost) (b : Nat) (r : Bool) : Prop :=
  ∀ x, g.Used x → x ≠ b ∨ r = false → g'.Used x ∧ g'.size x = g.size x

/-- What the release of a block in use can do: nothing, unmap it, move the break back over it, or
put it on the free list. -/
inductive Released (a : Allocator) (g : Ghost) (b : Nat) : Bool → Allocator → Prop where
  | refused (hb : b ∈ g.maps ∨ b + g.span b = a.brkHeapEnd) : Released a g b false a
  | unmapped {os : Os} (hb : b ∈ g.maps) (hsb : os.startBrk = a.os.startBrk)
      (hbrk : os.brk = a.os.brk)
      (hmap : ∀ x, os.mapped x = true ↔ ¬ (b ≤ x ∧ x < b + g.span b) ∧ a.os.mapped x = true)
      (hi : Inv { a with os := os } (g.unmap b)) : Released a g b true { a with os := os }
  | shrunk {os : Os} (hb : b ∈ g.blocks) (hend : b + g.span b = a.brkHeapEnd)
      (hmap : os.mapped = a.os.mapped) (hbrk : os.brk = b)
      (hi : Inv { a with os := os, brkHeapEnd := b } (g.drop b)) :
      Released a g b true { a with os := os, brkHeapEnd := b }
  | listed {a' : Allocator} {g' : Ghost} (hb : b ∈ g.blocks) (hend : b + g.span b ≠ a.brkHeapEnd)
      (hi : Inv a' g') (hk : (g.loosen b).SameUse g') (hsame : SameHeap a a') :
      Released a g b true a'

theorem release_cases (hi : Inv a g) (hb : g.Used b) (h : a.release k fuel b = some (r, a')) :
    Released a g b r a' := by
  have hc := hi.coherent
  obtain ⟨hpos, hlt⟩ := hc.used_lt hb
  rw [Allocator.release] at h
  rcases hb with hb | ⟨hb, hf⟩
  · have hx := hc.holding.maps b hb
    have hm : a.mapped b = true := hx.mapped_eq
    have hspan : a.blockSpan b = g.span b := hx.blockSpan_eq hlt
    rw [if_pos hm, hspan] at h
    cases hos : a.os.munmap k b (g.span b) with
    | mk ok os =>
        simp only [hos] at h
        obtain ⟨rfl, rfl⟩ := Prod.mk.inj (Option.some.inj h)
        rcases Os.munmap_spec hos with ⟨rfl, hsb, hbrk, hmap⟩ | ⟨rfl, rfl⟩
        · exact .unmapped hb hsb hbrk hmap (hi.unmap hb hsb hbrk hmap)
        · exact .refused (.inl hb)
  · rw [if_neg (by simp [hc.mapped_eq hb]), hc.blockEnd_eq hb] at h
    split at h
    · rename_i hend
      obtain ⟨⟨ok, a₁⟩, hret, hrest⟩ := Option.bind_eq_some_iff.mp h
      obtain ⟨rfl, rfl⟩ := Prod.mk.inj (Option.some.inj hrest)
      obtain ⟨g', hi', hk, hsame⟩ := returnBack_spec hi hb hf hret
      exact .listed hb hend hi' hk hsame
    · rename_i hend
      have hend : b + g.span b = a.brkHeapEnd := not_not.mp hend
      cases hos : a.os.setBrk k b with
      | mk ok os =>
          simp only [hos] at h
          rcases Os.setBrk_spec hos with ⟨rfl, hsb, hmap, hbrk⟩ | ⟨rfl, rfl⟩
          · obtain ⟨rfl, rfl⟩ := Prod.mk.inj (Option.some.inj h)
            exact .shrunk hb hend hmap hbrk (hi.drop hb hf hend hsb hmap hbrk)
          · obtain ⟨rfl, rfl⟩ := Prod.mk.inj (Option.some.inj h)
            exact .refused (.inr hend)

theorem release_spec (hi : Inv a g) (hb : g.Used b) (h : a.release k fuel b = some (r, a')) :
    ∃ g', Inv a' g' ∧ KeepsBut g g' b r := by
  cases release_cases hi hb h with
  | refused _ => exact ⟨g, hi, fun x hx _ => ⟨hx, rfl⟩⟩
  | unmapped _ _ _ _ hi' =>
      refine ⟨_, hi', fun x hx hne => ⟨?_, rfl⟩⟩
      have hxb : x ≠ b := hne.resolve_right (by simp)
      exact hx.imp_left fun h => (List.mem_erase_of_ne hxb).mpr h
  | shrunk _ _ _ _ hi' =>
      refine ⟨_, hi', fun x hx hne => ⟨?_, rfl⟩⟩
      have hxb : x ≠ b := hne.resolve_right (by simp)
      exact hx.imp_right fun h => ⟨(List.mem_erase_of_ne hxb).mpr h.1, h.2⟩
  | listed _ _ hi' hk _ =>
      refine ⟨_, hi', fun x hx hne => ?_⟩
      have hxb : x ≠ b := hne.resolve_right (by simp)
      refine hk.keeps x (hx.imp_right fun ⟨hxm, hxf⟩ => ⟨hxm, ?_⟩)
      simpa [Ghost.loosen, Ghost.setIsFree, Ghost.setNext, hxb] using hxf

/-- `deallocate(T*)` finds the block of a pointer that was handed out. -/
theorem Coherent.deallocate_eq (hc : Coherent a g loose) (hb : g.Used b) :
    a.deallocate k fuel (b + headerSize) = a.deallocateBlock k fuel b := by
  obtain ⟨hpos, hlt⟩ := hc.used_lt hb
  have hsub : sub64 (b + headerSize) headerSize = b := by
    rw [headerSize, sub64_eq (by omega) (by omega)]
    omega
  rw [Allocator.deallocate, hsub]

/-- A block in use is released as it is. -/
theorem deallocateBlock_used (hi : Inv a g) (hb : g.Used b) :
    a.deallocateBlock k fuel b = a.release k fuel b := by
  have hc := hi.coherent
  obtain ⟨hpos, -⟩ := hc.used_lt hb
  have hf : a.isFree b = false := by
    rcases hb with hb | ⟨hb, hf⟩
    · rw [(hc.holding.maps b hb).isFree_eq]
      exact (hc.maps b hb).2.2.1
    · rw [hc.isFree_eq hb, hf]
  rw [Allocator.deallocateBlock, if_neg (by omega), if_neg (by simp [hf])]

/-- A free block leaves the list, then it is released. -/
theorem deallocateBlock_free {a₁ : Allocator} (hi : Inv a g) (hb : b ∈ g.free)
    (hunlink : a.unlinkFree fuel b = some (r, a₁)) :
    ∃ a₂ prev, Inv a₂ (g.detach prev b) ∧ SameHeap a a₂ ∧ (g.detach prev b).Used b ∧
      a.deallocateBlock k fuel b = a₂.release k fuel b := by
  have hc := hi.coherent
  have hbm := hc.mem_blocks hb
  have hpos := hc.pos hbm
  have hf := hc.isFree_of_mem hb
  obtain ⟨rfl, ⟨prev, hc₁⟩, hbytes, hsame⟩ := hc.unlinkFree_spec hb hunlink
  have hsum := Ghost.freeBytes_detach hb prev
  have hle := hc.freeBytes_le fun x hx => by cases hx
  have hlim := hc.limit
  have hsize : a₁.size b = g.size b := hc₁.size_eq hbm
  have hi₁ : Inv { a₁ with availableBytes := sub64 a₁.availableBytes (a₁.size b) }
      (g.detach prev b) := by
    refine ⟨hc₁.setBytes _, hi.separate.detach prev b, ?_⟩
    show sub64 a₁.availableBytes (a₁.size b) = _
    rw [hbytes, hi.bytes, hsize, hsum, sub64_eq (by omega) (by omega)]
    omega
  refine ⟨_, prev, hi₁, hsame, .inr ⟨hbm, by simp [Ghost.detach]⟩, ?_⟩
  rw [Allocator.deallocateBlock, if_neg (by omega), if_pos (by rw [hc.isFree_eq hbm, hf])]
  simp only [hunlink, Option.bind_eq_bind, Option.bind_some, if_true]

/-- If it ends, it got the block off the list. -/
theorem unlinkFree_of_deallocateBlock (hi : Inv a g) (hb : b ∈ g.free)
    (h : a.deallocateBlock k fuel b = some (r, a')) :
    ∃ ok a₁, a.unlinkFree fuel b = some (ok, a₁) := by
  have hc := hi.coherent
  have hbm := hc.mem_blocks hb
  have hpos := hc.pos hbm
  have hf := hc.isFree_of_mem hb
  rw [Allocator.deallocateBlock, if_neg (by omega),
    if_pos (by rw [hc.isFree_eq hbm, hf])] at h
  obtain ⟨⟨ok, a₁⟩, hunlink, -⟩ := Option.bind_eq_some_iff.mp h
  exact ⟨ok, a₁, hunlink⟩

/-- `deallocate(Block*)` of a block in use, or of one on the free list. -/
theorem deallocateBlock_spec (hi : Inv a g) (hb : g.Used b ∨ b ∈ g.free)
    (h : a.deallocateBlock k fuel b = some (r, a')) : ∃ g', Inv a' g' ∧ KeepsBut g g' b r := by
  rcases hb with hb | hb
  · rw [deallocateBlock_used hi hb] at h
    exact release_spec hi hb h
  · obtain ⟨ok, a₁, hunlink⟩ := unlinkFree_of_deallocateBlock hi hb h
    obtain ⟨a₂, prev, hi₂, -, hu, heq⟩ := deallocateBlock_free hi hb hunlink
    obtain ⟨g', hi', hk⟩ := release_spec hi₂ hu (heq ▸ h)
    refine ⟨g', hi', fun x hx hne => ?_⟩
    have hxb : x ≠ b := fun h => hi.coherent.not_used hb (h ▸ hx)
    obtain ⟨hx₁, hs₁⟩ := hi.coherent.used_detach hb prev x hx
    obtain ⟨hx₂, hs₂⟩ := hk x hx₁ (.inl hxb)
    exact ⟨hx₂, hs₂.trans hs₁⟩

/-- Nothing has been allocated. -/
def Ghost.empty : Ghost := ⟨[], [], [], fun _ => 0, fun _ => false, fun _ => 0⟩

theorem coherent_empty (mem : Memory) (os : Os) :
    Coherent ⟨0, 0, 0, 0, 0, mem, os⟩ .empty none where
  holding := ⟨fun _ h => absurd h List.not_mem_nil, fun _ h => absurd h List.not_mem_nil⟩
  tiles := rfl
  brk := .inl ⟨rfl, rfl⟩
  limit := Nat.two_pow_pos 64
  clear _ _ h := absurd h (Nat.not_lt_zero _)
  maps _ h := absurd h List.not_mem_nil
  mapsApart := .nil
  chain := rfl
  nodup := .nil
  onList b := by simp [Ghost.empty]
  cursor := .inl rfl

theorem init_spec (k : Kernel) (mem : Memory) (os : Os) : ∃ g, Inv (.init k mem os) g := by
  have hc := coherent_empty mem os
  rw [Allocator.init]
  cases hcreate : Allocator.createBlock k ⟨0, 0, 0, 0, 0, mem, os⟩ initialChunk true false 0 with
  | mk b a =>
      have hsep : ∀ b, (Ghost.empty.extend b initialChunk true).Separate [] := by
        intro b x hx y hy hxy _ _
        have hx : x ∈ [b] := hx
        have hy : y ∈ [b] := hy
        have := (Ghost.empty.extend b initialChunk true).span_pos x
        have := List.mem_singleton.mp hx
        have := List.mem_singleton.mp hy
        omega
      rcases createBlock_brk hc (by decide) hcreate with ⟨rfl, rfl⟩ | ⟨hpos, hb, hc₁, hbytes, hlist⟩
      · simp only [if_true]
        exact ⟨.empty, hc, fun b hb => absurd hb List.not_mem_nil, rfl⟩
      · have hbm : b ∈ (Ghost.empty.extend b initialChunk true).blocks := by simp [Ghost.extend]
        have hbf : (Ghost.empty.extend b initialChunk true).isFree b = true := by
          simp [Ghost.extend]
        have hsize : a.size b = initialChunk := by
          rw [hc₁.size_eq hbm]
          simp [Ghost.extend]
        have hzero : b ≠ 0 := by omega
        simp only [if_neg hzero]
        refine ⟨{ Ghost.empty.extend b initialChunk true with free := [b] }, ⟨⟨⟨?_, ?_⟩, hc₁.tiles,
          hc₁.brk, hc₁.limit, hc₁.clear, hc₁.maps, hc₁.mapsApart, ⟨ptr_of_pos hpos, ?_⟩,
          List.nodup_singleton b, fun x => ?_, ?_⟩, hsep b, ?_⟩⟩
        · exact hc₁.holding.blocks
        · exact hc₁.holding.maps
        · simp [Ghost.links, Ghost.extend, Forward]
        · show x ∈ [b] ↔ x ∈ [b] ∧ _
          refine ⟨fun h => ⟨h, ?_, by simp⟩, And.left⟩
          obtain rfl := List.mem_singleton.mp h
          exact hbf
        · exact hc₁.cursor.imp id fun h => absurd h List.not_mem_nil
        · show a.size b = (List.map (Function.update _ b initialChunk) [b]).sum
          rw [hsize]
          simp

end TieredAllocator.Old
