import TieredAllocator.Old.Invariant

/-!
# Old design — what the operations do

One lemma for each function: from the invariant, and if its loops end, what it returns and which
edit of the ghost it amounts to.  `Keeps g g'` says that the blocks in use are what they were, and
`SameUse g g'` that no others came into use.
-/

namespace TieredAllocator.Old
open Lib

namespace Ghost

/-- `b` is mapped, or a block of the segment that is not free. -/
def Used (g : Ghost) (b : Nat) : Prop := b ∈ g.maps ∨ (b ∈ g.blocks ∧ g.isFree b = false)

def Keeps (g g' : Ghost) : Prop := ∀ b, g.Used b → g'.Used b ∧ g'.size b = g.size b

theorem Keeps.refl (g : Ghost) : g.Keeps g := fun _ h => ⟨h, rfl⟩

theorem Keeps.trans {g g' g'' : Ghost} (h : g.Keeps g') (h' : g'.Keeps g'') : g.Keeps g'' := by
  intro b hb
  obtain ⟨hb', hs⟩ := h b hb
  obtain ⟨hb'', hs'⟩ := h' b hb'
  exact ⟨hb'', hs'.trans hs⟩

/-- The same blocks are in use, with the same sizes. -/
def SameUse (g g' : Ghost) : Prop :=
  ∀ b, (g'.Used b ↔ g.Used b) ∧ (g.Used b → g'.size b = g.size b)

theorem SameUse.refl (g : Ghost) : g.SameUse g := fun _ => ⟨Iff.rfl, fun _ => rfl⟩

theorem SameUse.trans {g g' g'' : Ghost} (h : g.SameUse g') (h' : g'.SameUse g'') :
    g.SameUse g'' := by
  intro b
  refine ⟨(h' b).1.trans (h b).1, fun hb => ?_⟩
  exact ((h' b).2 ((h b).1.mpr hb)).trans ((h b).2 hb)

theorem SameUse.keeps {g g' : Ghost} (h : g.SameUse g') : g.Keeps g' :=
  fun b hb => ⟨(h b).1.mpr hb, (h b).2 hb⟩

end Ghost

/-- The bytes of the block that is on no list. -/
def looseBytes (g : Ghost) : Option Nat → Nat
  | none => 0
  | some b => g.size b

variable {a a' : Allocator} {g : Ghost} {loose : Option Nat} {b p w n : Nat} {fuel : Nat} {r : Bool}
  {E : List Nat}

/-! ### Bounds -/

theorem Coherent.freeBytes_le (hc : Coherent a g loose)
    (hloose : ∀ x, loose = some x → x ∈ g.blocks) :
    g.freeBytes + looseBytes g loose + 40 * g.free.length ≤ a.brkHeapEnd := by
  have hspan : ∀ l : List Nat, (l.map g.span).sum = (l.map g.size).sum + 40 * l.length := by
    intro l
    induction l with
    | nil => rfl
    | cons x l ih =>
        simp only [List.map_cons, List.sum_cons, List.length_cons, ih, Ghost.span]
        omega
  have hsub : g.free ⊆ g.blocks := fun x hx => hc.mem_blocks hx
  cases loose with
  | none =>
      have := hc.tiles.sum_le hc.nodup hsub
      rw [hspan] at this
      rw [Ghost.freeBytes, looseBytes]
      omega
  | some x =>
      have hx := hloose x rfl
      have hnd : (x :: g.free).Nodup :=
        List.nodup_cons.mpr ⟨fun h => ((hc.onList x).mp h).2.2 rfl, hc.nodup⟩
      have := hc.tiles.sum_le hnd (List.cons_subset.mpr ⟨hx, hsub⟩)
      rw [hspan, List.map_cons, List.sum_cons, List.length_cons] at this
      rw [Ghost.freeBytes, looseBytes]
      omega

/-! ### The free list -/

/-- The loop stops at `b`, and needs a round for each node up to it. -/
theorem findFree_eq {prev curr : Nat} {l₁ l₂ : List Nat}
    (hl : Forward (fun y => ptr (a.next y)) (ptr curr) (l₁ ++ b :: l₂)) (hb : b ∉ l₁) :
    a.findFree b fuel prev curr =
      if l₁.length < fuel then some (l₁.getLastD prev, b) else none := by
  induction l₁ generalizing fuel prev curr with
  | nil =>
      obtain ⟨hcurr, -⟩ := ptr_eq_some.mp hl.1
      cases fuel with
      | zero => rfl
      | succ fuel => simp [Allocator.findFree, hcurr]
  | cons y l₁ ih =>
      obtain ⟨rfl, hpos⟩ := ptr_eq_some.mp hl.1
      have hyb : curr ≠ b := fun h => hb (by simp [h])
      cases fuel with
      | zero => rfl
      | succ fuel =>
          rw [Allocator.findFree, if_pos ⟨by omega, hyb⟩,
            ih hl.2 fun h => hb (List.mem_cons_of_mem _ h), List.getLastD_cons]
          simp

/-- The list goes around `b`, which stood behind `prev`, and `b` is no longer free. -/
def Allocator.cut (a : Allocator) (prev b : Nat) : Allocator :=
  { ((if prev = 0 then a else a.setNext prev (a.next b)).setIsFree b false).setNext b 0 with
    freeList := if prev = 0 then a.next b else a.freeList
    prevSearchEnd := if b = a.prevSearchEnd then prev else a.prevSearchEnd }

theorem cut_rest (a : Allocator) (prev b : Nat) :
    (a.cut prev b).availableBytes = a.availableBytes ∧
      (a.cut prev b).brkHeapStart = a.brkHeapStart ∧ (a.cut prev b).brkHeapEnd = a.brkHeapEnd ∧
      (a.cut prev b).os = a.os := by
  rw [Allocator.cut]
  split <;> exact ⟨rfl, rfl, rfl, rfl⟩

theorem unlinkFree_eq {l₁ l₂ : List Nat}
    (hl : Forward (fun y => ptr (a.next y)) (ptr a.freeList) (l₁ ++ b :: l₂)) (hb : b ∉ l₁)
    (hpos : 0 < b) : a.unlinkFree fuel b =
      if l₁.length < fuel then some (true, a.cut (l₁.getLastD 0) b) else none := by
  rw [Allocator.unlinkFree, findFree_eq hl hb]
  by_cases hfuel : l₁.length < fuel
  · simp only [if_pos hfuel, Option.bind_eq_bind, Option.bind_some, if_neg (show b ≠ 0 by omega)]
    generalize l₁.getLastD 0 = prev
    by_cases hprev : prev = 0
    · by_cases hcur : b = a.prevSearchEnd
      · simp [hprev, ← hcur, Allocator.cut, Allocator.setIsFree, Allocator.setNext]
      · simp [hprev, hcur, Allocator.cut, Allocator.setIsFree, Allocator.setNext]
    · by_cases hcur : b = a.prevSearchEnd
      · simp [hprev, ← hcur, Allocator.cut, Allocator.setIsFree, Allocator.setNext]
      · simp [hprev, hcur, Allocator.cut, Allocator.setIsFree, Allocator.setNext]
  · simp [hfuel]

theorem unlinkFree_head {l : List Nat}
    (hl : Forward (fun y => ptr (a.next y)) (ptr a.freeList) (b :: l)) (hpos : 0 < b) :
    a.unlinkFree 1 b = some (true, a.cut 0 b) := by
  have hnil : Forward (fun y => ptr (a.next y)) (ptr a.freeList) ([] ++ b :: l) := hl
  rw [unlinkFree_eq hnil List.not_mem_nil hpos, if_pos (by decide)]
  rfl

/-- The walk along the list from `curr`. -/
abbrev Walk (a : Allocator) (curr : Nat) (l : List Nat) : Prop :=
  Forward (fun y => ptr (a.next y)) (ptr curr) l

/-- The list goes no further behind `nullptr`. -/
theorem nthFree_of_le {i j : Nat} (h : a.nthFree i = 0) (hij : i ≤ j) : a.nthFree j = 0 := by
  induction hij with
  | refl => exact h
  | step _ ih => rw [Allocator.nthFree, if_pos ih]

namespace Coherent

theorem walk (hc : Coherent a g loose) : Walk a a.freeList g.free :=
  hc.chain.congr fun y hy => by rw [hc.next_eq (hc.mem_blocks hy), Ghost.links]

theorem walk_nthFree (hc : Coherent a g loose) (i : Nat) :
    Walk a (a.nthFree i) (g.free.drop i) := by
  induction i with
  | zero => exact hc.walk
  | succ i ih =>
      rw [Allocator.nthFree]
      cases hd : g.free.drop i with
      | nil =>
          rw [hd] at ih
          have hnil : g.free.drop (i + 1) = [] := by
            rw [← List.drop_drop, hd]
            rfl
          rw [if_pos (ptr_eq_none.mp ih), hnil]
          rfl
      | cons b l =>
          rw [hd] at ih
          obtain ⟨hb, hpos⟩ := ptr_eq_some.mp ih.1
          have htail : g.free.drop (i + 1) = l := by
            rw [← List.drop_drop, hd]
            rfl
          rw [htail, hb, if_neg (by omega)]
          exact ih.2

theorem nthFree_mem (hc : Coherent a g loose) {i : Nat} (h : a.nthFree i ≠ 0) :
    a.nthFree i ∈ g.free := by
  have hwalk := hc.walk_nthFree i
  cases hd : g.free.drop i with
  | nil =>
      rw [hd] at hwalk
      exact absurd (ptr_eq_none.mp hwalk) h
  | cons b l =>
      rw [hd] at hwalk
      rw [(ptr_eq_some.mp hwalk.1).1]
      exact List.mem_of_mem_drop (hd ▸ List.mem_cons_self)

/-- The positions of the list are its nodes. -/
theorem exists_nthFree (hc : Coherent a g loose) (P : Nat → Prop) :
    (∃ i, a.nthFree i ≠ 0 ∧ P (a.nthFree i)) ↔ ∃ b ∈ g.free, P b := by
  constructor
  · rintro ⟨i, hne, hP⟩
    exact ⟨_, hc.nthFree_mem hne, hP⟩
  · rintro ⟨b, hb, hP⟩
    obtain ⟨l₁, l₂, hl⟩ := List.append_of_mem hb
    have hwalk := hc.walk_nthFree l₁.length
    rw [hl, List.drop_left] at hwalk
    obtain ⟨heq, hpos⟩ := ptr_eq_some.mp hwalk.1
    exact ⟨l₁.length, by omega, heq.symm ▸ hP⟩

theorem used_detach (hc : Coherent a g loose) (hb : b ∈ g.free) (prev : Nat) :
    g.Keeps (g.detach prev b) := by
  rintro x (hx | ⟨hx, hf⟩)
  · exact ⟨.inl hx, rfl⟩
  · refine ⟨.inr ⟨hx, ?_⟩, rfl⟩
    have hxb : x ≠ b := by
      rintro rfl
      rw [hc.isFree_of_mem hb] at hf
      cases hf
    simpa [Ghost.detach, hxb] using hf

/-- The stores of both ways to take `b` off the list. -/
theorem holding_detach (hc : Coherent a g loose) {prev : Nat} (hb : b ∈ g.blocks)
    (hprev : prev = 0 ∨ prev ∈ g.blocks) :
    Holding
      (((if prev = 0 then a else a.setNext prev (a.next b)).setIsFree b false).setNext b 0).mem
        (g.detach prev b) ∧
      Holding (((if prev = 0 then a else a.setNext prev (a.next b)).setNext b 0).setIsFree b
        false).mem (g.detach prev b) := by
  have hap : ∀ n f, Ghost.Apart { g with next := n, isFree := f } := fun _ _ =>
    ⟨hc.apart.blocks, hc.apart.maps⟩
  have hzero : 0 < 2 ^ 64 := by decide
  by_cases h0 : prev = 0
  · have h₁ := (hc.holding.setIsFree hc.apart hb false).setNext (hap _ _) hb hzero
    have h₂ := (hc.holding.setNext hc.apart hb hzero).setIsFree (hap _ _) hb false
    simp only [if_pos h0, Ghost.detach]
    exact ⟨⟨h₁.blocks, h₁.maps⟩, ⟨h₂.blocks, h₂.maps⟩⟩
  · have hlink := hc.holding.setNext hc.apart (hprev.resolve_left h0) (hc.next_lt hb)
    have h₁ := (hlink.setIsFree (hap _ _) hb false).setNext (hap _ _) hb hzero
    have h₂ := (hlink.setNext (hap _ _) hb hzero).setIsFree (hap _ _) hb false
    simp only [if_neg h0, Ghost.detach, hc.next_eq hb]
    exact ⟨⟨h₁.blocks, h₁.maps⟩, ⟨h₂.blocks, h₂.maps⟩⟩

theorem unlinkFree_spec (hc : Coherent a g loose) (hb : b ∈ g.free)
    (h : a.unlinkFree fuel b = some (r, a')) :
    r = true ∧ (∃ prev, Coherent a' (g.detach prev b) loose) ∧
      a'.availableBytes = a.availableBytes ∧ a'.brkHeapStart = a.brkHeapStart ∧
      a'.brkHeapEnd = a.brkHeapEnd ∧ a'.os = a.os := by
  obtain ⟨l₁, l₂, hl⟩ := List.append_of_mem hb
  have hbm := hc.mem_blocks hb
  have hnb : b ∉ l₁ := fun h =>
    List.disjoint_of_nodup_append (hl ▸ hc.nodup) h List.mem_cons_self
  rw [unlinkFree_eq (hl ▸ hc.walk) hnb (hc.pos hbm)] at h
  split at h
  case isFalse => cases h
  obtain ⟨rfl, rfl⟩ := Prod.mk.inj (Option.some.inj h)
  obtain ⟨hbytes, hstart, hend, hos⟩ := cut_rest a (l₁.getLastD 0) b
  have hprev := hc.prev_cases hl
  have hmem := (hc.holding_detach hbm (hprev.imp_right And.right)).1
  refine ⟨rfl, ⟨_, hc.detach hl hmem ?_ hstart hend hos ?_⟩, hbytes, hstart, hend, hos⟩
  · rw [Allocator.cut, hc.next_eq hbm]
  · rw [show (a.cut (l₁.getLastD 0) b).prevSearchEnd =
      if b = a.prevSearchEnd then l₁.getLastD 0 else a.prevSearchEnd from rfl]
    split
    · exact hprev.imp id fun h => List.mem_append_left _ h.1
    · rename_i hne
      refine hc.cursor.imp id fun hcur => ?_
      rw [hl] at hcur
      rcases List.mem_append.mp hcur with h | h
      · exact List.mem_append_left _ h
      · exact List.mem_append_right _ ((List.mem_cons.mp h).resolve_left (Ne.symm hne))

end Coherent

/-! ### Coalescing -/

/-- The block `w` is free, and it is on the list or in hand. -/
structure Coalescing (a : Allocator) (g : Ghost) (loose : Option Nat) (w : Nat) : Prop where
  coherent : Coherent a g loose
  mem : w ∈ g.blocks
  isFree : g.isFree w = true
  owner : loose = none ∨ loose = some w
  bytes : a.availableBytes = g.freeBytes + looseBytes g loose

/-- The registers that coalescing leaves alone. -/
def SameHeap (a a' : Allocator) : Prop :=
  a'.brkHeapStart = a.brkHeapStart ∧ a'.brkHeapEnd = a.brkHeapEnd ∧ a'.os = a.os

theorem SameHeap.trans {a'' : Allocator} (h : SameHeap a a') (h' : SameHeap a' a'') :
    SameHeap a a'' :=
  ⟨h'.1.trans h.1, h'.2.1.trans h.2.1, h'.2.2.trans h.2.2⟩

/-- A free block that takes in a free one leaves the others. -/
theorem Ghost.SameUse.merge {c : Nat} (hp : g.isFree p = true) (hpm : p ∉ g.maps)
    (hcf : g.isFree c = true) (hnd : g.blocks.Nodup) : g.SameUse (g.merge p c) := by
  intro x
  constructor
  · refine or_congr Iff.rfl
      ⟨fun ⟨hx, hf⟩ => ⟨List.mem_of_mem_erase hx, hf⟩, fun ⟨hx, hf⟩ => ⟨?_, hf⟩⟩
    refine hnd.mem_erase_iff.mpr ⟨?_, hx⟩
    rintro rfl
    rw [hcf] at hf
    cases hf
  · intro hx
    have hxp : x ≠ p := by
      rintro rfl
      rcases hx with hx | ⟨-, hf⟩
      · exact hpm hx
      · rw [hp] at hf
        cases hf
    simp [Ghost.merge, hxp]

/-- The size of `p` after it has taken in the block behind it. -/
theorem Coherent.grow_size {c : Nat} (hc : Coherent a g loose) (hp : p ∈ g.blocks)
    (hq : c ∈ g.blocks) (hend : p + g.span p = c) :
    add64 (a.size p) (add64 overheadSize (a.size c)) = g.size p + (40 + g.size c) := by
  have := hc.lt hq
  have : g.span p = 40 + g.size p := rfl
  rw [hc.size_eq hp, hc.size_eq hq, show overheadSize = 40 from rfl,
    add64_eq (show 40 + g.size c < 2 ^ 64 by omega), add64_eq (by omega)]

/-- What is free is not mapped. -/
theorem Coherent.not_mem_maps (hc : Coherent a g loose) (hp : g.isFree p = true) : p ∉ g.maps := by
  intro h
  have := (hc.maps p h).2.2.1
  rw [hp] at this
  cases this

/-- Only one block ends where another starts. -/
theorem Coherent.prev_unique {q : Nat} (hc : Coherent a g loose) (hp : p ∈ g.blocks)
    (hq : q ∈ g.blocks) (h : q + g.span q = p + g.span p) : q = p := by
  by_contra hne
  have := hc.tiles.apart hq hp hne
  have := g.span_pos p
  have := g.span_pos q
  omega

/-- `b` in hand joins the free block `p` before it. -/
theorem Coherent.absorb_loose (hc : Coherent a g (some b)) (hb : b ∈ g.blocks)
    (hf : g.isFree b = true) (hbytes : a.availableBytes = g.freeBytes + g.size b)
    (hp : p ∈ g.blocks) (hend : p + g.span p = b) (hpf : g.isFree p = true)
    (hsep : g.Separate [p, b]) :
    Coalescing { a.resize p (g.size p + (40 + g.size b)) with
        availableBytes := add64 a.availableBytes overheadSize } (g.merge p b) none p ∧
      (g.merge p b).Separate [p] ∧ g.SameUse (g.merge p b) := by
  have hpb : p ≠ b := by
    have := g.span_pos p
    omega
  have hbf : b ∉ g.free := fun h => ((hc.onList b).mp h).2.2 rfl
  have hpfree : p ∈ g.free := (hc.onList p).mpr ⟨hp, hpf, by simpa using hpb.symm⟩
  have hle := hc.freeBytes_le fun x hx => (Option.some.inj hx) ▸ hb
  have hlen : 0 < g.free.length := List.length_pos_of_mem hpfree
  have hlim := hc.limit
  rw [looseBytes] at hle
  have hm := hc.merge hp hb hend hbf
  rw [if_pos rfl] at hm
  refine ⟨⟨hm.setBytes _, ?_, hpf, .inl rfl, ?_⟩, ?_, ?_⟩
  · exact hc.blocks_nodup.mem_erase_iff.mpr ⟨hpb, hp⟩
  · show add64 a.availableBytes overheadSize = _
    rw [Ghost.freeBytes_merge hc.nodup, if_pos hpfree, hbytes, looseBytes,
      show overheadSize = 40 from rfl, add64_eq (by omega)]
    omega
  · refine hsep.merge (fun x hx hne => ?_) (List.mem_singleton_self p) hc.blocks_nodup
    rcases List.mem_cons.mp hx with rfl | hx
    · exact List.mem_singleton_self _
    · exact absurd (List.mem_singleton.mp hx) hne
  · exact .merge hpf (hc.not_mem_maps hpf) hf hc.blocks_nodup

theorem coalescePrev_spec (hc : Coherent a g (some b)) (hb : b ∈ g.blocks)
    (hf : g.isFree b = true) (hbytes : a.availableBytes = g.freeBytes + g.size b)
    (hsep : ∀ x ∈ g.blocks, ∀ y ∈ g.blocks, x + g.span x = y → g.isFree x = true →
      g.isFree y = true → x = b ∨ y = b)
    (h : a.coalescePrev b = (w, a')) :
    ∃ g' loose', Coalescing a' g' loose' w ∧ g'.Separate [w] ∧ g.SameUse g' ∧ SameHeap a a' ∧
      ((loose' = some b ∧ w = b) ∨ (loose' = none ∧ w ≠ b)) := by
  have hnone : (∀ p ∈ g.blocks, p + g.span p = b → g.isFree p = false) → (b, a) = (w, a') →
      ∃ g' loose', Coalescing a' g' loose' w ∧ g'.Separate [w] ∧ g.SameUse g' ∧ SameHeap a a' ∧
        ((loose' = some b ∧ w = b) ∨ (loose' = none ∧ w ≠ b)) := by
    intro hno heq
    obtain ⟨rfl, rfl⟩ := Prod.mk.inj heq
    refine ⟨g, some b, ⟨hc, hb, hf, .inr rfl, hbytes⟩, fun x hx y hy hxy hfx hfy => ?_, .refl g,
      ⟨rfl, rfl, rfl⟩, .inl ⟨rfl, rfl⟩⟩
    rcases hsep x hx y hy hxy hfx hfy with rfl | rfl
    · exact List.mem_singleton_self _
    · rw [hno x hx hxy] at hfx
      cases hfx
  rw [Allocator.coalescePrev] at h
  rcases hc.prevPhys_spec hb with ⟨hprev, hstart⟩ | ⟨p, hp, hprev, hend⟩
  · simp only [hprev, ne_eq, not_true_eq_false, false_and, if_false] at h
    refine hnone (fun p hp hend => ?_) h
    have := (hc.tiles.mem hp).1
    have := g.span_pos p
    omega
  · cases hpf : g.isFree p with
    | false =>
        simp only [hprev, hc.isFree_eq hp, hpf, Bool.false_eq_true, false_and, and_false,
          if_false] at h
        exact hnone (fun q hq hqend => by
          rw [hc.prev_unique hp hq (hqend.trans hend.symm), hpf]) h
    | true =>
        have hpos := hc.pos hp
        have hcond : p ≠ 0 ∧ a.isFree p = true ∧ a.mapped p = a.mapped b := by
          rw [hc.isFree_eq hp, hc.mapped_eq hp, hc.mapped_eq hb]
          exact ⟨by omega, hpf, rfl⟩
        have hpb : p ≠ b := by
          have := g.span_pos p
          omega
        simp only [hprev, if_pos hcond, hc.grow_size hp hb hend] at h
        obtain ⟨rfl, rfl⟩ := Prod.mk.inj h
        obtain ⟨hw, hs, hk⟩ := hc.absorb_loose hb hf hbytes hp hend hpf
            fun x hx y hy hxy hfx hfy => by
          rcases hsep x hx y hy hxy hfx hfy with rfl | rfl
          · simp
          · simp [hc.prev_unique hp hx (hxy.trans hend.symm)]
        exact ⟨_, none, hw, hs, hk, ⟨rfl, rfl, rfl⟩, .inr ⟨rfl, hpb⟩⟩

/-- `w` takes in the free block behind it, which leaves the list first. -/
theorem Coalescing.absorb_next {a₁ : Allocator} {c prev : Nat} (hw : Coalescing a g loose w)
    (hsep : g.Separate [w]) (hcm : c ∈ g.blocks) (hend : w + g.span w = c) (hcfree : c ∈ g.free)
    (hc₁ : Coherent a₁ (g.detach prev c) loose) (hb₁ : a₁.availableBytes = a.availableBytes) :
    Coalescing { a₁.resize w (g.size w + (40 + g.size c)) with
        availableBytes := add64 a₁.availableBytes overheadSize } ((g.detach prev c).merge w c)
        loose w ∧
      ((g.detach prev c).merge w c).Separate [w] ∧ g.SameUse ((g.detach prev c).merge w c) := by
  obtain ⟨hc, hwm, hwf, howner, hbytes⟩ := hw
  have hwc : w ≠ c := by
    have := g.span_pos w
    omega
  have hcf₁ : c ∉ (g.detach prev c).free := fun h => (hc.nodup.mem_erase_iff.mp h).1 rfl
  have hloosec : loose ≠ some c := ((hc.onList c).mp hcfree).2.2
  have hm := hc₁.merge hwm hcm hend hcf₁
  rw [if_neg hloosec] at hm
  have hle := hc.freeBytes_le fun x hx => by
    rcases howner with rfl | rfl
    · cases hx
    · exact Option.some.inj hx ▸ hwm
  have hlen : 0 < g.free.length := List.length_pos_of_mem hcfree
  have hlim := hc.limit
  have hsum := Ghost.freeBytes_detach hcfree prev
  have hwf₁ : (g.detach prev c).isFree w = true := by simpa [Ghost.detach, hwc] using hwf
  have hcf : (g.detach prev c).isFree c = false := by simp [Ghost.detach]
  refine ⟨⟨hm.setBytes _, ?_, hwf₁, howner, ?_⟩, ?_, ?_⟩
  · exact hc.blocks_nodup.mem_erase_iff.mpr ⟨hwc, hwm⟩
  · show add64 a₁.availableBytes overheadSize = _
    have hadd : add64 a₁.availableBytes overheadSize = a.availableBytes + 40 := by
      rw [hb₁, show overheadSize = 40 from rfl, add64_eq (by omega)]
    rw [hadd, Ghost.freeBytes_merge hc₁.nodup, hbytes, hsum]
    rcases howner with rfl | rfl
    · have hwfree : w ∈ (g.detach prev c).free :=
        hc.nodup.mem_erase_iff.mpr ⟨hwc, (hc.onList w).mpr ⟨hwm, hwf, by simp⟩⟩
      rw [if_pos hwfree, looseBytes, looseBytes]
      show _ = _ + (40 + g.size c) + 0
      omega
    · have hwfree : w ∉ (g.detach prev c).free := fun h =>
        ((hc.onList w).mp (List.mem_of_mem_erase h)).2.2 rfl
      rw [if_neg hwfree, looseBytes, looseBytes]
      show _ = _ + 0 + Function.update g.size w (g.size w + (40 + g.size c)) w
      rw [Function.update_self]
      omega
  · refine (hsep.detach prev c).merge (fun x hx _ => hx) (List.mem_singleton_self w) hc.blocks_nodup
  · intro x
    constructor
    · refine or_congr Iff.rfl ⟨fun hxf => ?_, fun hxf => ?_⟩ <;> obtain ⟨hx, hf⟩ := hxf
      · obtain ⟨hxc, hx⟩ := hc.blocks_nodup.mem_erase_iff.mp hx
        exact ⟨hx, by simpa [Ghost.merge, Ghost.detach, hxc] using hf⟩
      · have hxc : x ≠ c := by
          rintro rfl
          rw [hc.isFree_of_mem hcfree] at hf
          cases hf
        refine ⟨hc.blocks_nodup.mem_erase_iff.mpr ⟨hxc, hx⟩, ?_⟩
        simpa [Ghost.merge, Ghost.detach, hxc] using hf
    · intro hx
      have hxw : x ≠ w := by
        rintro rfl
        rcases hx with hx | ⟨-, hf⟩
        · exact hc.not_mem_maps hwf hx
        · rw [hwf] at hf
          cases hf
      simp [Ghost.merge, Ghost.detach, hxw]

theorem coalesceNext_spec (hw : Coalescing a g loose w) (hsep : g.Separate [w])
    (h : a.coalesceNext fuel w = some a') :
    ∃ g', Coalescing a' g' loose w ∧ g'.Separate [] ∧ g.SameUse g' ∧ SameHeap a a' := by
  induction fuel generalizing a g with
  | zero => cases h
  | succ fuel ih =>
      have hc := hw.coherent
      have hwm := hw.mem
      have hdone : (∀ y ∈ g.blocks, w + g.span w = y → g.isFree y = false) → some a = some a' →
          ∃ g', Coalescing a' g' loose w ∧ g'.Separate [] ∧ g.SameUse g' ∧ SameHeap a a' := by
        intro hno heq
        obtain rfl := Option.some.inj heq
        refine ⟨g, hw, fun x hx y hy hxy hfx hfy => ?_, .refl g, ⟨rfl, rfl, rfl⟩⟩
        obtain rfl := List.mem_singleton.mp (hsep x hx y hy hxy hfx hfy)
        rw [hno y hy hxy] at hfy
        cases hfy
      rw [Allocator.coalesceNext] at h
      rcases hc.nextPhys_spec hwm with ⟨hnext, hend⟩ | ⟨hnext, hcm⟩
      · simp only [hnext, true_or, if_true] at h
        refine hdone (fun y hy hwy => ?_) h
        have := (hc.tiles.mem hy).2
        have := g.span_pos y
        omega
      · generalize hend : w + g.span w = c at *
        cases hcf : g.isFree c with
        | false =>
            simp only [hnext, hc.isFree_eq hcm, hcf, Bool.false_eq_true, not_false_eq_true, true_or,
              or_true, if_true] at h
            exact hdone (fun y hy hwy => hwy ▸ hcf) h
        | true =>
            have hcpos := hc.pos hcm
            have hwc : w ≠ c := by
              have := g.span_pos w
              omega
            have hloosec : loose ≠ some c := by
              rcases hw.owner with h | h
              · simp [h]
              · simpa [h] using hwc
            have hcfree : c ∈ g.free := (hc.onList c).mpr ⟨hcm, hcf, hloosec⟩
            have hcond : ¬ (c = 0 ∨ ¬ a.isFree c = true ∨ a.mapped c ≠ a.mapped w) := by
              rw [hc.isFree_eq hcm, hc.mapped_eq hcm, hc.mapped_eq hwm, hcf]
              simp
              omega
            simp only [hnext, if_neg hcond, Option.bind_eq_bind] at h
            obtain ⟨⟨ok, a₁⟩, hunlink, h⟩ := Option.bind_eq_some_iff.mp h
            obtain ⟨-, ⟨prev, hc₁⟩, hb₁, hs₁, he₁, ho₁⟩ := hc.unlinkFree_spec hcfree hunlink
            have hsize : add64 (a₁.size w) (add64 overheadSize (a₁.size c)) =
                g.size w + (40 + g.size c) :=
              hc₁.grow_size (g := g.detach prev c) hwm hcm hend
            obtain ⟨hw₂, hsep₂, hk₂⟩ := hw.absorb_next hsep hcm hend hcfree hc₁ hb₁
            simp only [hsize] at h
            obtain ⟨g', hw', hsep', hk', hsame⟩ := ih hw₂ hsep₂ h
            exact ⟨g', hw', hsep', hk₂.trans hk', ⟨hsame.1.trans hs₁, hsame.2.1.trans he₁,
              hsame.2.2.trans ho₁⟩⟩

/-! ### Between the operations -/

/-- No block is in hand, no two neighbours are free, and the count is right. -/
structure Inv (a : Allocator) (g : Ghost) : Prop where
  coherent : Coherent a g none
  separate : g.Separate []
  bytes : a.availableBytes = g.freeBytes

theorem coalesceAround_spec (hc : Coherent a g (some b)) (hb : b ∈ g.blocks)
    (hf : g.isFree b = true) (hbytes : a.availableBytes = g.freeBytes + g.size b)
    (hsep : ∀ x ∈ g.blocks, ∀ y ∈ g.blocks, x + g.span x = y → g.isFree x = true →
      g.isFree y = true → x = b ∨ y = b)
    (h : a.coalesceAround fuel b = some (w, a')) :
    ∃ g' loose', Coalescing a' g' loose' w ∧ g'.Separate [] ∧ g.SameUse g' ∧ SameHeap a a' ∧
      ((loose' = some b ∧ w = b) ∨ (loose' = none ∧ w ≠ b)) := by
  have hpos := hc.pos hb
  have hcond : ¬ (b = 0 ∨ a.mapped b = true) := by
    rw [hc.mapped_eq hb]
    simp
    omega
  rw [Allocator.coalesceAround, if_neg hcond] at h
  obtain ⟨a₂, hnext, h⟩ := Option.bind_eq_some_iff.mp h
  obtain ⟨hw, rfl⟩ := Prod.mk.inj (Option.some.inj h)
  obtain ⟨g₁, loose₁, hw₁, hsep₁, hk₁, hsame₁, hcase⟩ :=
    coalescePrev_spec hc hb hf hbytes hsep (h := Prod.ext hw rfl)
  rw [hw] at hnext
  obtain ⟨g₂, hw₂, hsep₂, hk₂, hsame₂⟩ := coalesceNext_spec hw₁ hsep₁ hnext
  exact ⟨g₂, loose₁, hw₂, hsep₂, hk₁.trans hk₂, hsame₁.trans hsame₂, hcase⟩

theorem returnBack_spec (hi : Inv a g) (hb : b ∈ g.blocks) (hf : g.isFree b = false)
    (h : a.returnBack fuel b = some (r, a')) :
    ∃ g', Inv a' g' ∧ (g.loosen b).SameUse g' ∧ SameHeap a a' := by
  obtain ⟨hc, hsep, hbytes⟩ := hi
  have hpos := hc.pos hb
  have hcond : ¬ (b = 0 ∨ a.isFree b = true) := by
    rw [hc.isFree_eq hb, hf]
    simp
    omega
  rw [Allocator.returnBack, if_neg hcond] at h
  obtain ⟨⟨w, a₂⟩, hcoal, h⟩ := Option.bind_eq_some_iff.mp h
  have hc₁ := hc.loosen hb hf
  have hsize : ((a.setIsFree b true).setNext b 0).size b = g.size b := hc₁.size_eq hb
  have hle : g.freeBytes + g.size b + 40 * g.free.length ≤ a.brkHeapEnd :=
    hc₁.freeBytes_le fun x hx => Option.some.inj hx ▸ hb
  have hlim := hc.limit
  have hadd : add64 a.availableBytes (g.size b) = g.freeBytes + g.size b := by
    rw [hbytes, add64_eq (by omega)]
  have hcoal : Allocator.coalesceAround fuel { (a.setIsFree b true).setNext b 0 with
      availableBytes := g.freeBytes + g.size b } b = some (w, a₂) := by
    rw [← hadd, ← hsize]
    exact hcoal
  have hsep₁ : ∀ x ∈ (g.loosen b).blocks, ∀ y ∈ (g.loosen b).blocks,
      x + (g.loosen b).span x = y → (g.loosen b).isFree x = true →
      (g.loosen b).isFree y = true → x = b ∨ y = b := by
    intro x hx y hy hxy hfx hfy
    by_contra hne
    obtain ⟨hxb, hyb⟩ := not_or.mp hne
    refine List.not_mem_nil (hsep x hx y hy hxy ?_ ?_)
    · simpa [Ghost.loosen, Ghost.setIsFree, Ghost.setNext, hxb] using hfx
    · simpa [Ghost.loosen, Ghost.setIsFree, Ghost.setNext, hyb] using hfy
  obtain ⟨g', loose', hw, hsep', hk, hsame, hcase⟩ :=
    coalesceAround_spec (hc₁.setBytes (g.freeBytes + g.size b)) hb
      (by simp [Ghost.loosen, Ghost.setIsFree, Ghost.setNext]) rfl hsep₁ hcoal
  have hsame : SameHeap a a₂ := hsame
  rcases hcase with ⟨rfl, rfl⟩ | ⟨rfl, hne⟩
  · simp only [if_true] at h
    obtain ⟨-, rfl⟩ := Prod.mk.inj (Option.some.inj h)
    refine ⟨_, ⟨hw.coherent.push hw.mem hw.isFree, hsep', ?_⟩, hk, hsame⟩
    show a₂.availableBytes = (List.map g'.size (w :: g'.free)).sum
    rw [hw.bytes, looseBytes, List.map_cons, List.sum_cons, Ghost.freeBytes]
    omega
  · simp only [if_neg hne] at h
    obtain ⟨-, rfl⟩ := Prod.mk.inj (Option.some.inj h)
    exact ⟨g', ⟨hw.coherent, hsep', hw.bytes⟩, hk, hsame⟩

end TieredAllocator.Old
