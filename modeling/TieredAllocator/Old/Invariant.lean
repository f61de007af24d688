import TieredAllocator.Old.Blocks

/-!
# Old design — the invariant

`Coherent a g loose`: the blocks of the ghost tile the segment and are what the memory says, the
mapped blocks lie outside it, and the free list threads the free blocks of the segment, each of them
once, but for the block `loose` that an operation has in its hands.  Two more facts are kept apart
from it, since the operations break and mend them on their way: which neighbours may both be free
(`Separate`), and how many bytes the list has (`freeBytes`).

Each section below is one edit of the blocks or the list.
-/

namespace TieredAllocator.Old
open Lib

/-- A pointer, or `nullptr`. -/
def ptr (n : Nat) : Option Nat := if n = 0 then none else some n

@[simp] theorem ptr_zero : ptr 0 = none := rfl

theorem ptr_of_pos {n : Nat} (h : 0 < n) : ptr n = some n := if_neg (by omega)

theorem ptr_eq_some {n b : Nat} : ptr n = some b ↔ n = b ∧ 0 < b := by
  rw [ptr]
  split <;> simp <;> omega

theorem ptr_eq_none {n : Nat} : ptr n = none ↔ n = 0 := by
  rw [ptr]
  split <;> simp [*]

namespace Ghost

/-- Where two neighbours are both free, the first one is in `E`. -/
def Separate (g : Ghost) (E : List Nat) : Prop :=
  ∀ b ∈ g.blocks, ∀ c ∈ g.blocks, b + g.span b = c → g.isFree b = true → g.isFree c = true → b ∈ E

def freeBytes (g : Ghost) : Nat := (g.free.map g.size).sum

/-- The links of the free list. -/
def links (g : Ghost) (b : Nat) : Option Nat := ptr (g.next b)

end Ghost

structure Coherent (a : Allocator) (g : Ghost) (loose : Option Nat) : Prop where
  holding : Holding a.mem g
  tiles : Tiles g.span a.brkHeapStart g.blocks a.brkHeapEnd
  brk : (a.brkHeapStart = 0 ∧ a.brkHeapEnd = 0) ∨
    (a.os.startBrk ≤ a.brkHeapStart ∧ a.os.brk = a.brkHeapEnd)
  limit : a.brkHeapEnd < 2 ^ 64
  /-- nothing is mapped inside the segment -/
  clear : ∀ x, a.brkHeapStart ≤ x → x < a.brkHeapEnd → a.os.mapped x = false
  maps : ∀ b ∈ g.maps, 0 < b ∧ b + g.span b < 2 ^ 64 ∧ g.isFree b = false ∧
    ∀ x, b ≤ x → x < b + g.span b → a.os.mapped x = true
  mapsApart : g.maps.Pairwise fun b c => b + g.span b ≤ c ∨ c + g.span c ≤ b
  chain : Forward g.links (ptr a.freeList) g.free
  nodup : g.free.Nodup
  onList : ∀ b, b ∈ g.free ↔ b ∈ g.blocks ∧ g.isFree b = true ∧ loose ≠ some b
  /-- the cursor -/
  cursor : a.prevSearchEnd = 0 ∨ a.prevSearchEnd ∈ g.free

namespace Coherent

variable {a a' : Allocator} {g g' : Ghost} {loose : Option Nat} {b c p : Nat} {m : Memory}

/-! ### What it says of a block -/

section
variable (hc : Coherent a g loose)
include hc

theorem mem_blocks (hb : b ∈ g.free) : b ∈ g.blocks := ((hc.onList b).mp hb).1

theorem isFree_of_mem (hb : b ∈ g.free) : g.isFree b = true := ((hc.onList b).mp hb).2.1

theorem pos (hb : b ∈ g.blocks) : 0 < b := by
  obtain ⟨h₁, h₂⟩ := hc.tiles.mem hb
  have := g.span_pos b
  have := a.os.startBrk_pos
  rcases hc.brk with ⟨-, h⟩ | ⟨h, -⟩ <;> omega

theorem lt (hb : b ∈ g.blocks) : b + 40 + g.size b < 2 ^ 64 := by
  have h := (hc.tiles.mem hb).2
  have := hc.limit
  rw [Ghost.span] at h
  omega

/-- The mapped blocks are apart from a range where nothing is mapped. -/
theorem maps_apart {lo hi : Nat} (hlt : lo < hi)
    (hclear : ∀ x, lo ≤ x → x < hi → a.os.mapped x = false) (hcm : c ∈ g.maps) :
    c + g.span c ≤ lo ∨ hi ≤ c := by
  obtain ⟨-, -, -, hmap⟩ := hc.maps c hcm
  have := g.span_pos c
  by_contra hcon
  -- the larger of the two starts lies in both
  have hin := hmap (max c lo) (by omega) (by omega)
  rw [hclear (max c lo) (by omega) (by omega)] at hin
  cases hin

theorem apart : g.Apart where
  blocks _ hb _ hc' hne := hc.tiles.apart hb hc' hne
  maps b hb c hcm := by
    obtain ⟨h₁, h₂⟩ := hc.tiles.mem hb
    have := g.span_pos b
    exact (hc.maps_apart (by omega) (fun x _ _ => hc.clear x (by omega) (by omega)) hcm).symm

theorem blocks_nodup : g.blocks.Nodup := hc.tiles.nodup fun x _ => g.span_pos x

theorem size_eq (hb : b ∈ g.blocks) : a.size b = g.size b := (hc.holding.blocks b hb).size_eq

theorem isFree_eq (hb : b ∈ g.blocks) : a.isFree b = g.isFree b :=
  (hc.holding.blocks b hb).isFree_eq

theorem mapped_eq (hb : b ∈ g.blocks) : a.mapped b = false := (hc.holding.blocks b hb).mapped_eq

theorem next_eq (hb : b ∈ g.blocks) : a.next b = g.next b := (hc.holding.blocks b hb).next_eq

theorem next_lt (hb : b ∈ g.blocks) : g.next b < 2 ^ 64 := by
  rw [← hc.next_eq hb]
  exact Memory.load_lt _ 8 _

theorem blockEnd_eq (hb : b ∈ g.blocks) : a.blockEnd b = b + g.span b :=
  (hc.holding.blocks b hb).blockEnd_eq (hc.lt hb)

theorem freeList_lt : a.freeList < 2 ^ 64 := by
  have h := hc.chain
  cases hf : g.free with
  | nil =>
      rw [hf] at h
      rw [ptr_eq_none.mp h]
      decide
  | cons b l =>
      rw [hf] at h
      obtain ⟨h, -⟩ := ptr_eq_some.mp h.1
      have := hc.lt (hc.mem_blocks (b := b) (by simp [hf]))
      omega

theorem setBytes (n : Nat) : Coherent { a with availableBytes := n } g loose :=
  ⟨hc.holding, hc.tiles, hc.brk, hc.limit, hc.clear, hc.maps, hc.mapsApart, hc.chain, hc.nodup,
    hc.onList, hc.cursor⟩

/-! ### Neighbours -/

theorem nextPhys_spec (hb : b ∈ g.blocks) :
    (a.nextPhys b = 0 ∧ b + g.span b = a.brkHeapEnd) ∨
      (a.nextPhys b = b + g.span b ∧ b + g.span b ∈ g.blocks) := by
  have hpos := hc.pos hb
  have hend := (hc.tiles.mem hb).2
  have hspan := g.span_pos b
  have hcond : ¬ (b = 0 ∨ a.mapped b = true) := by
    rw [hc.mapped_eq hb]
    simp
    omega
  rw [Allocator.nextPhys, if_neg hcond, hc.blockEnd_eq hb]
  rcases hc.tiles.next_mem hb with h | h
  · exact .inl ⟨if_pos (.inr h.ge), h⟩
  · have := (hc.tiles.mem h).2
    have := g.span_pos (b + g.span b)
    exact .inr ⟨if_neg (by omega), h⟩

theorem prevPhys_spec (hb : b ∈ g.blocks) :
    (a.prevPhys b = 0 ∧ b = a.brkHeapStart) ∨
      ∃ p ∈ g.blocks, a.prevPhys b = p ∧ p + g.span p = b := by
  have hpos := hc.pos hb
  obtain ⟨hstart, hend⟩ := hc.tiles.mem hb
  have hlimit := hc.limit
  have hspan := g.span_pos b
  have hzero : a.brkHeapStart ≠ 0 := by
    have := a.os.startBrk_pos
    rcases hc.brk with ⟨-, h⟩ | ⟨h, -⟩ <;> omega
  have hcond : ¬ (b = 0 ∨ a.mapped b = true ∨ a.brkHeapStart = 0) := by
    rw [hc.mapped_eq hb]
    simp
    omega
  rw [Allocator.prevPhys, if_neg hcond]
  rcases hc.tiles.prev_mem hb with h | ⟨p, hp, h⟩
  · refine .inl ⟨if_pos ?_, h⟩
    rw [headerSize]
    by_cases hlt : a.brkHeapStart + 24 < 2 ^ 64
    · rw [add64_eq hlt]
      omega
    · rw [Ghost.span] at *
      omega
  · have hpstart := (hc.tiles.mem hp).1
    have hx := hc.holding.blocks p hp
    have hfs : a.mem.load (b - 16) 8 = g.size p := by
      rw [← h, Ghost.span, show p + (40 + g.size p) - 16 = p + 24 + g.size p by omega]
      exact hx.footerSize
    have hfm : a.mem.load (b - 16 + 8) 1 = 0 := by
      rw [← h, Ghost.span, show p + (40 + g.size p) - 16 = p + 24 + g.size p by omega]
      exact hx.footerMapped
    rw [Ghost.span] at h hspan hend
    have hle : ¬ b ≤ add64 a.brkHeapStart headerSize := by
      rw [headerSize, add64_eq (by omega)]
      omega
    have haddr : sub64 b (add64 overheadSize (g.size p)) = p := by
      rw [overheadSize, headerSize, footerSize, add64_eq (by omega), sub64_eq (by omega) (by omega)]
      omega
    refine .inr ⟨p, hp, ?_, h⟩
    simp only [if_neg hle, footerSize, sub64_eq (show 16 ≤ b by omega) (show b < 2 ^ 64 by omega),
      hfs, hfm, haddr, hc.mapped_eq hp, if_neg (show ¬ p < a.brkHeapStart by omega)]
    rfl

end

end Coherent

/-! ### A block leaves the free list -/

namespace Ghost

/-- `b` is off the list, where it came behind `prev`, and no longer free. -/
def detach (g : Ghost) (prev b : Nat) : Ghost :=
  let links := if prev = 0 then g.next else Function.update g.next prev (g.next b)
  { g with
    free := g.free.erase b
    isFree := Function.update g.isFree b false
    next := Function.update links b 0 }

theorem freeBytes_detach {g : Ghost} {b : Nat} (hb : b ∈ g.free) (prev : Nat) :
    g.freeBytes = g.size b + (g.detach prev b).freeBytes :=
  ((List.perm_cons_erase hb).map g.size).sum_eq

theorem Separate.detach {g : Ghost} {E : List Nat} (h : g.Separate E) (prev b : Nat) :
    (g.detach prev b).Separate E := by
  have hmono : ∀ x, (g.detach prev b).isFree x = true → g.isFree x = true := by
    intro x hx
    by_cases hxb : x = b
    · simp [Ghost.detach, hxb] at hx
    · simpa [Ghost.detach, hxb] using hx
  intro x hx y hy hxy hfx hfy
  exact h x hx y hy hxy (hmono x hfx) (hmono y hfy)

end Ghost

namespace Coherent

variable {a a' : Allocator} {g g' : Ghost} {loose : Option Nat} {b c p cur : Nat}
  {l₁ l₂ : List Nat}

/-- The node before `b` on the list, or 0. -/
theorem prev_mem (hc : Coherent a g loose) (hl : g.free = l₁ ++ b :: l₂) :
    (l₁.getLastD 0 = 0 ∧ l₁ = []) ∨
      ∃ l p, l₁ = l ++ [p] ∧ l₁.getLastD 0 = p ∧ 0 < p ∧ p ∈ g.free := by
  rcases List.eq_nil_or_concat l₁ with rfl | ⟨l, p, rfl⟩
  · exact .inl ⟨rfl, rfl⟩
  · have hp : p ∈ g.free := by simp [hl]
    exact .inr ⟨l, p, by simp, by simp, hc.pos (hc.mem_blocks hp), hp⟩

theorem prev_cases (hc : Coherent a g loose) (hl : g.free = l₁ ++ b :: l₂) :
    l₁.getLastD 0 = 0 ∨ (l₁.getLastD 0 ∈ l₁ ∧ l₁.getLastD 0 ∈ g.blocks) := by
  rcases hc.prev_mem hl with ⟨hq, -⟩ | ⟨l, p, rfl, hq, -, hp⟩
  · exact .inl hq
  · rw [hq]
    exact .inr ⟨by simp, hc.mem_blocks hp⟩

/-- The list goes from the node before `b` to the node behind it. -/
theorem chain_detach (hc : Coherent a g loose) (hl : g.free = l₁ ++ b :: l₂) :
    Forward (g.detach (l₁.getLastD 0) b).links
      (ptr (if l₁.getLastD 0 = 0 then g.next b else a.freeList)) (l₁ ++ l₂) := by
  have hnd : (l₁ ++ b :: l₂).Nodup := hl ▸ hc.nodup
  have hchain : Forward g.links (ptr a.freeList) (l₁ ++ b :: l₂) := hl ▸ hc.chain
  have hnb : b ∉ l₁ ++ l₂ := (List.nodup_cons.mp (List.nodup_middle.mp hnd)).1
  have hother : ∀ y q, y ≠ b → y ≠ q → (g.detach q b).links y = g.links y := by
    intro y q hyb hyq
    simp only [Ghost.links, Ghost.detach, Function.update_of_ne hyb]
    split
    · rfl
    · rw [Function.update_of_ne hyq]
  rcases hc.prev_mem hl with ⟨hq, rfl⟩ | ⟨l, p, rfl, hq, hpos, hp⟩
  · rw [hq, if_pos rfl]
    refine hchain.2.congr fun y hy => hother y 0 (fun h => hnb (h ▸ hy)) ?_
    have := hc.pos (hc.mem_blocks (b := y) (by simp [hl, hy]))
    omega
  · rw [hq, if_neg (by omega)]
    rw [List.append_assoc, List.singleton_append] at hchain hnd hnb ⊢
    have hpb : p ≠ b := fun h => hnb (by simp [h])
    have hnp : p ∉ l ++ l₂ := fun h =>
      (List.nodup_cons.mp (List.nodup_middle.mp hnd)).1 (by
        rcases List.mem_append.mp h with h | h <;> simp [h])
    refine hchain.skip ?_ fun y hy => hother y p ?_ fun h => hnp (h ▸ hy)
    · simp [Ghost.links, Ghost.detach, hpb, show p ≠ 0 by omega]
    · rintro rfl
      refine hnb ?_
      rcases List.mem_append.mp hy with h | h <;> simp [h]

theorem detach (hc : Coherent a g loose) (hl : g.free = l₁ ++ b :: l₂)
    (hmem : Holding a'.mem (g.detach (l₁.getLastD 0) b))
    (hfree : a'.freeList = if l₁.getLastD 0 = 0 then g.next b else a.freeList)
    (hstart : a'.brkHeapStart = a.brkHeapStart) (hend : a'.brkHeapEnd = a.brkHeapEnd)
    (hos : a'.os = a.os) (hcur : a'.prevSearchEnd = 0 ∨ a'.prevSearchEnd ∈ l₁ ++ l₂) :
    Coherent a' (g.detach (l₁.getLastD 0) b) loose := by
  have hb : b ∈ g.free := by simp [hl]
  have hnb : b ∉ l₁ := fun h =>
    List.disjoint_of_nodup_append (hl ▸ hc.nodup) h List.mem_cons_self
  have herase : (g.detach (l₁.getLastD 0) b).free = l₁ ++ l₂ := by
    show g.free.erase b = _
    rw [hl, List.erase_append_right _ hnb, List.erase_cons_head]
  refine ⟨hmem, ?_, ?_, ?_, ?_, ?_, hc.mapsApart, ?_, hc.nodup.erase b, fun x => ?_, ?_⟩
  · rw [hstart, hend]
    exact hc.tiles
  · rw [hstart, hend, hos]
    exact hc.brk
  · rw [hend]
    exact hc.limit
  · rw [hstart, hend, hos]
    exact hc.clear
  · intro c hcm
    have hne : c ≠ b := hc.apart.ne (hc.mem_blocks hb) hcm
    obtain ⟨h₁, h₂, h₃, h₄⟩ := hc.maps c hcm
    rw [hos]
    exact ⟨h₁, h₂, by simpa [Ghost.detach, hne] using h₃, h₄⟩
  · rw [herase, hfree]
    exact hc.chain_detach hl
  · show x ∈ g.free.erase b ↔ _
    rw [hc.nodup.mem_erase_iff, hc.onList]
    by_cases hxb : x = b <;> simp [Ghost.detach, hxb]
  · rw [herase]
    exact hcur

end Coherent

/-! ### A block in hand, and back on the list -/

namespace Ghost

/-- `b` is free, but not on the list. -/
def loosen (g : Ghost) (b : Nat) : Ghost := (g.setIsFree b true).setNext b 0

/-- `b` is the head of the list, in front of `head`. -/
def push (g : Ghost) (b head : Nat) : Ghost := { g.setNext b head with free := b :: g.free }

end Ghost

namespace Coherent

variable {a : Allocator} {g : Ghost} {loose : Option Nat} {b c p : Nat}

theorem loosen (hc : Coherent a g none) (hb : b ∈ g.blocks) (hf : g.isFree b = false) :
    Coherent ((a.setIsFree b true).setNext b 0) (g.loosen b) (some b) := by
  have hnb : b ∉ g.free := fun h => by simp [hc.isFree_of_mem h] at hf
  have hap : (g.setIsFree b true).Apart := ⟨hc.apart.blocks, hc.apart.maps⟩
  refine ⟨(hc.holding.setIsFree hc.apart hb true).setNext hap hb (by decide), hc.tiles, hc.brk,
    hc.limit, hc.clear, fun c hcm => ?_, hc.mapsApart, ?_, hc.nodup, fun x => ?_, hc.cursor⟩
  · obtain ⟨h₁, h₂, h₃, h₄⟩ := hc.maps c hcm
    refine ⟨h₁, h₂, ?_, h₄⟩
    simpa [Ghost.loosen, Ghost.setIsFree, Ghost.setNext, hc.apart.ne hb hcm] using h₃
  · refine hc.chain.congr fun y hy => ?_
    have hyb : y ≠ b := fun h => hnb (h ▸ hy)
    simp [Ghost.links, Ghost.loosen, Ghost.setIsFree, Ghost.setNext, hyb]
  · show x ∈ g.free ↔ _
    by_cases hxb : x = b
    · simp [Ghost.loosen, Ghost.setNext, hxb, hnb]
    · simp [Ghost.loosen, Ghost.setNext, Ghost.setIsFree, hxb, Ne.symm hxb, hc.onList]

theorem push (hc : Coherent a g (some b)) (hb : b ∈ g.blocks) (hf : g.isFree b = true) :
    Coherent (a.insertFree b) (g.push b a.freeList) none := by
  have hnb : b ∉ g.free := fun h => ((hc.onList b).mp h).2.2 rfl
  have hmem : Holding (a.insertFree b).mem (g.setNext b a.freeList) :=
    hc.holding.setNext hc.apart hb hc.freeList_lt
  refine ⟨⟨hmem.blocks, hmem.maps⟩, hc.tiles, hc.brk, hc.limit, hc.clear, hc.maps, hc.mapsApart,
    ⟨ptr_of_pos (hc.pos hb), ?_⟩, List.nodup_cons.mpr ⟨hnb, hc.nodup⟩, fun x => ?_, ?_⟩
  · rw [show (g.push b a.freeList).links b = ptr a.freeList by
      simp [Ghost.links, Ghost.push, Ghost.setNext]]
    refine hc.chain.congr fun y hy => ?_
    have hyb : y ≠ b := fun h => hnb (h ▸ hy)
    simp [Ghost.links, Ghost.push, Ghost.setNext, hyb]
  · show x ∈ b :: g.free ↔ _
    rw [List.mem_cons, hc.onList]
    by_cases hxb : x = b
    · simp [Ghost.push, Ghost.setNext, hxb, hb, hf]
    · simp [Ghost.push, Ghost.setNext, hxb, Ne.symm hxb]
  · exact hc.cursor.imp id fun h => List.mem_cons_of_mem _ h

end Coherent

/-! ### Two neighbours become one block -/

namespace Ghost

/-- `c` joins `p`, which ends where `c` starts. -/
def merge (g : Ghost) (p c : Nat) : Ghost :=
  { g with
    blocks := g.blocks.erase c
    size := Function.update g.size p (g.size p + (40 + g.size c)) }

end Ghost

namespace Coherent

variable {a : Allocator} {g : Ghost} {loose : Option Nat} {b c p : Nat} {E : List Nat}

/-- The new footer of `p` is where the footer of `c` was. -/
theorem holding_merge (hc : Coherent a g loose) (hp : p ∈ g.blocks) (hpc : c ∈ g.blocks)
    (hend : p + g.span p = c) :
    Holding (a.resize p (g.size p + (40 + g.size c))).mem (g.merge p c) := by
  have hspan : g.span p = 40 + g.size p := rfl
  have hlt := hc.lt hpc
  have hn : p + 40 + (g.size p + (40 + g.size c)) < 2 ^ 64 := by omega
  have hframe : ∀ y, ¬ (p ≤ y ∧ y < c + g.span c) →
      (a.resize p (g.size p + (40 + g.size c))).mem.byte y = a.mem.byte y := by
    intro y hy
    rw [Ghost.span] at hy
    exact Allocator.resize_frame (hc.holding.blocks p hp) hn (by omega)
  refine hc.holding.frame hframe (fun x hx => ?_) fun x hx => .inr ⟨hx, ?_, ?_⟩
  · have hx' := List.mem_of_mem_erase hx
    have hxc : x ≠ c := fun h => (hc.blocks_nodup.mem_erase_iff.mp hx).1 h
    by_cases hxp : x = p
    · subst hxp
      have := Allocator.resize_holds (hc.holding.blocks x hp) hn
      exact .inl (by simpa [Ghost.header, Ghost.merge] using this)
    · refine .inr ⟨hx', by simp [Ghost.header, Ghost.merge, hxp], ?_⟩
      have h₁ := hc.tiles.apart hx' hp hxp
      have h₂ := hc.tiles.apart hx' hpc hxc
      have := g.span_pos x
      omega
  · simp [Ghost.header, Ghost.merge, hc.apart.ne hp hx]
  · have h₁ := hc.apart.maps p hp x hx
    have h₂ := hc.apart.maps c hpc x hx
    have := g.span_pos x
    omega

theorem merge (hc : Coherent a g loose) (hp : p ∈ g.blocks) (hpc : c ∈ g.blocks)
    (hend : p + g.span p = c) (hcf : c ∉ g.free) :
    Coherent (a.resize p (g.size p + (40 + g.size c))) (g.merge p c)
      (if loose = some c then none else loose) := by
  have hpos := g.span_pos p
  have hspan : g.span p = 40 + g.size p := rfl
  obtain ⟨l₁, l₂, hl⟩ := hc.tiles.side_by_side (fun x _ => g.span_pos x) hp (hend ▸ hpc)
  rw [hend] at hl
  have hnd := hc.blocks_nodup
  have herase : g.blocks.erase c = l₁ ++ p :: l₂ := by
    have hnot : c ∉ l₁ ++ [p] := by
      intro h
      have hnd' : ((l₁ ++ [p]) ++ c :: l₂).Nodup := by simpa [hl] using hnd
      exact List.disjoint_of_nodup_append hnd' h List.mem_cons_self
    rw [hl, show l₁ ++ p :: c :: l₂ = (l₁ ++ [p]) ++ c :: l₂ by simp,
      List.erase_append_right _ hnot, List.erase_cons_head, List.append_assoc,
      List.singleton_append]
  have hmaps : ∀ x ∈ g.maps, x ≠ p := fun x hx => hc.apart.ne hp hx
  have hsize : ∀ x ≠ p, (g.merge p c).size x = g.size x := fun x hx => by
    simp [Ghost.merge, hx]
  refine ⟨hc.holding_merge hp hpc hend, ?_, hc.brk, hc.limit, hc.clear, fun x hx => ?_, ?_,
    hc.chain, hc.nodup, fun x => ?_, hc.cursor⟩
  · show Tiles _ _ (g.blocks.erase c) _
    rw [herase]
    refine (hl ▸ hc.tiles).merge ?_ fun x hx => ?_
    · simp only [Ghost.span, Ghost.merge, Function.update_self]
      omega
    · have hxp : x ≠ p := by
        rintro rfl
        rw [hl] at hnd
        have := (List.nodup_cons.mp (List.nodup_middle.mp hnd)).1
        rcases List.mem_append.mp hx with h | h <;> simp [h] at this
      rw [Ghost.span, Ghost.span, hsize x hxp]
  · obtain ⟨h₁, h₂, h₃, h₄⟩ := hc.maps x hx
    have hs : (g.merge p c).span x = g.span x := by
      rw [Ghost.span, Ghost.span, hsize x (hmaps x hx)]
    rw [hs]
    exact ⟨h₁, h₂, h₃, h₄⟩
  · refine hc.mapsApart.imp_of_mem fun {x y} hx hy hxy => ?_
    rw [Ghost.span, Ghost.span, hsize x (hmaps x hx), hsize y (hmaps y hy)]
    exact hxy
  · show x ∈ g.free ↔ x ∈ g.blocks.erase c ∧ g.isFree x = true ∧ _
    rw [hnd.mem_erase_iff, hc.onList]
    have hcon := hc.onList c
    by_cases hxc : x = c
    · subst hxc
      simp only [ne_eq, not_true_eq_false, false_and, iff_false]
      exact fun h => hcf (hcon.mpr h)
    · split
      · rename_i hlc
        simp [hxc, hlc, Ne.symm hxc]
      · simp [hxc]

end Coherent

namespace Ghost

variable {g : Ghost} {b c p n : Nat} {E E' : List Nat}

theorem Separate.merge (h : g.Separate E) (hE : ∀ x ∈ E, x ≠ c → x ∈ E') (hp : p ∈ E')
    (hnd : g.blocks.Nodup) : (g.merge p c).Separate E' := by
  intro x hx y hy hxy hfx hfy
  by_cases hxp : x = p
  · exact hxp ▸ hp
  · obtain ⟨hxc, hx⟩ := hnd.mem_erase_iff.mp hx
    rw [Ghost.span, show (g.merge p c).size x = g.size x by simp [Ghost.merge, hxp]] at hxy
    exact hE x (h x hx y (List.mem_of_mem_erase hy) hxy hfx hfy) hxc

/-- The sum over a list when one summand changes. -/
theorem sum_update {f : Nat → Nat} {l : List Nat} (hnd : l.Nodup) (hp : p ∈ l) :
    (l.map (Function.update f p (f p + n))).sum = (l.map f).sum + n := by
  have hperm := List.perm_cons_erase hp
  have hrest : (l.erase p).map (Function.update f p (f p + n)) = (l.erase p).map f :=
    List.map_congr_left fun x hx =>
      Function.update_of_ne (fun h => (hnd.mem_erase_iff.mp hx).1 h) _ _
  rw [(hperm.map _).sum_eq, (hperm.map f).sum_eq, List.map_cons, List.map_cons, hrest,
    List.sum_cons, List.sum_cons, Function.update_self]
  omega

theorem sum_update_of_not_mem {f : Nat → Nat} {l : List Nat} (hp : p ∉ l) :
    (l.map (Function.update f p n)).sum = (l.map f).sum := by
  refine congrArg List.sum (List.map_congr_left fun x hx => Function.update_of_ne ?_ n f)
  rintro rfl
  exact hp hx

theorem freeBytes_merge (hnd : g.free.Nodup) :
    (g.merge p c).freeBytes = g.freeBytes + if p ∈ g.free then 40 + g.size c else 0 := by
  rw [freeBytes, freeBytes, Ghost.merge]
  split
  · exact sum_update hnd ‹_›
  · exact sum_update_of_not_mem ‹_›

end Ghost

/-! ### One block becomes two -/

namespace Ghost

/-- `b` keeps `n` bytes; what is left is the block `r` behind it, also on the list. -/
def split (g : Ghost) (b n r : Nat) (l₁ l₂ f₁ f₂ : List Nat) : Ghost where
  blocks := l₁ ++ b :: r :: l₂
  maps := g.maps
  free := f₁ ++ b :: r :: f₂
  size := Function.update (Function.update g.size b n) r (g.size b - n - 40)
  isFree := Function.update g.isFree r true
  next := Function.update (Function.update g.next r (g.next b)) b r

end Ghost

namespace Coherent

variable {a : Allocator} {m : Memory} {g : Ghost} {loose : Option Nat} {b c n r : Nat}
  {l₁ l₂ f₁ f₂ : List Nat}

/-- No block starts inside another. -/
theorem not_mem_of_inside (hc : Coherent a g loose) (hb : b ∈ g.blocks) (h₁ : b < c)
    (h₂ : c < b + g.span b) : c ∉ g.blocks ∧ c ∉ g.maps := by
  constructor
  · intro h
    have := hc.tiles.apart hb h (by omega)
    have := g.span_pos c
    omega
  · intro h
    have := hc.apart.maps b hb c h
    have := g.span_pos c
    omega

theorem holding_split (hc : Coherent a g loose) (hl : g.blocks = l₁ ++ b :: l₂)
    (hn : n + 40 < g.size b) :
    Holding (((a.resize b n).format (b + (40 + n)) (g.size b - n - 40) true false
      (g.next b)).setNext b (b + (40 + n))).mem (g.split b n (b + (40 + n)) l₁ l₂ f₁ f₂) := by
  have hb : b ∈ g.blocks := by simp [hl]
  have hlt := hc.lt hb
  have hx := hc.holding.blocks b hb
  have hspan : g.span b = 40 + g.size b := rfl
  obtain ⟨hr₁, hr₂⟩ := hc.not_mem_of_inside (c := b + (40 + n)) hb (by omega) (by omega)
  have hother : ∀ x, x ≠ b → x ≠ b + (40 + n) → ∀ f,
      (g.split b n (b + (40 + n)) l₁ l₂ f₁ f₂).header f x = g.header f x := by
    intro x h₁ h₂ f
    simp [Ghost.header, Ghost.split, h₁, h₂]
  have hframe : ∀ y, ¬ (b ≤ y ∧ y < b + g.span b) →
      (((a.resize b n).format (b + (40 + n)) (g.size b - n - 40) true false
        (g.next b)).setNext b (b + (40 + n))).mem.byte y = a.mem.byte y := by
    intro y hy
    rw [Allocator.setNext, Memory.store_byte_of_not_mem (by omega),
      Allocator.format_frame (by omega) (by omega),
      Allocator.resize_frame hx (by omega) (by omega)]
  refine hc.holding.frame hframe (fun x hx' => ?_) fun x hx' => .inr ⟨hx', ?_, ?_⟩
  · by_cases hxb : x = b
    · subst hxb
      have h₁ := Allocator.resize_holds hx (show x + 40 + n < 2 ^ 64 by omega)
      have h₂ : Holds ((a.resize x n).format (x + (40 + n)) (g.size x - n - 40) true false
          (g.next x)).mem x _ := h₁.congr
        (fun y _ _ => Allocator.format_frame (by omega) (by omega))
        fun y hy hy' => Allocator.format_frame (by omega) (by simp only at hy'; omega)
      have h₃ := h₂.setNext (show x + (40 + n) < 2 ^ 64 by omega)
      exact .inl (by simpa [Ghost.header, Ghost.split] using h₃)
    · by_cases hxr : x = b + (40 + n)
      · subst hxr
        have h₁ : Holds ((a.resize b n).format (b + (40 + n)) (g.size b - n - 40) true false
            (g.next b)).mem (b + (40 + n)) ⟨g.size b - n - 40, true, false, g.next b⟩ :=
          Allocator.format_holds (by omega) (hc.next_lt hb)
        have h₂ : Holds (((a.resize b n).format (b + (40 + n)) (g.size b - n - 40) true false
            (g.next b)).setNext b (b + (40 + n))).mem (b + (40 + n)) _ :=
          h₁.congr (fun y _ _ => Memory.store_byte_of_not_mem (by omega))
            fun y hy _ => Memory.store_byte_of_not_mem (by simp only at hy; omega)
        exact .inl (by simpa [Ghost.header, Ghost.split] using h₂)
      · have hxm : x ∈ g.blocks := by
          have : x ∈ l₁ ++ b :: (b + (40 + n)) :: l₂ := hx'
          simp only [List.mem_append, List.mem_cons, hxb, hxr, false_or] at this
          rw [hl, List.mem_append, List.mem_cons]
          exact this.imp id .inr
        have := hc.tiles.apart hxm hb hxb
        exact .inr ⟨hxm, hother x hxb hxr false, by omega⟩
  · exact hother x (hc.apart.ne hb hx') (fun h => hr₂ (h ▸ hx')) true
  · have := hc.apart.maps b hb x hx'
    omega

theorem split (hc : Coherent a g loose) (hl : g.blocks = l₁ ++ b :: l₂)
    (hf : g.free = f₁ ++ b :: f₂) (hn : n + 40 < g.size b) (hr : r = b + (40 + n))
    (hmem : Holding m (g.split b n r l₁ l₂ f₁ f₂)) (hloose : loose ≠ some r) :
    Coherent { a with mem := m } (g.split b n r l₁ l₂ f₁ f₂) loose := by
  have hb : b ∈ g.blocks := by simp [hl]
  have hspan : g.span b = 40 + g.size b := rfl
  obtain ⟨hrb, hrm⟩ := hc.not_mem_of_inside (c := r) hb (by omega) (by omega)
  have hne : r ≠ b := by omega
  have hrf : r ∉ g.free := fun h => hrb (hc.mem_blocks h)
  have hsize : ∀ x, x ≠ b → x ≠ r → (g.split b n r l₁ l₂ f₁ f₂).span x = g.span x := by
    intro x h₁ h₂
    simp [Ghost.span, Ghost.split, h₁, h₂]
  have hmaps : ∀ x ∈ g.maps, x ≠ b ∧ x ≠ r := fun x hx =>
    ⟨hc.apart.ne hb hx, fun h => hrm (h ▸ hx)⟩
  refine ⟨hmem, ?_, hc.brk, hc.limit, hc.clear, fun x hx => ?_, ?_, ?_, ?_, fun x => ?_, ?_⟩
  · have hnd := hl ▸ hc.blocks_nodup
    refine (hl ▸ hc.tiles).split ?_ ?_ fun x hx => hsize x ?_ ?_
    · simp [Ghost.span, Ghost.split, hr]
    · simp only [Ghost.span, Ghost.split, Function.update_self, Function.update_of_ne hne.symm]
      omega
    · rintro rfl
      exact (List.nodup_cons.mp (List.nodup_middle.mp hnd)).1 hx
    · rintro rfl
      refine hrb ?_
      rw [hl]
      rcases List.mem_append.mp hx with h | h <;> simp [h]
  · obtain ⟨h₁, h₂⟩ := hmaps x hx
    rw [hsize x h₁ h₂]
    simpa [Ghost.split, h₂] using hc.maps x hx
  · refine hc.mapsApart.imp_of_mem fun {x y} hx hy hxy => ?_
    rw [hsize x (hmaps x hx).1 (hmaps x hx).2, hsize y (hmaps y hy).1 (hmaps y hy).2]
    exact hxy
  · have hnd := hf ▸ hc.nodup
    refine (hf ▸ hc.chain).put ?_ ?_ fun y hy => ?_
    · simp only [Ghost.links, Ghost.split, Function.update_self]
      exact ptr_of_pos (by omega)
    · simp [Ghost.links, Ghost.split, hne]
    · have hyb : y ≠ b := fun h => (List.nodup_cons.mp (List.nodup_middle.mp hnd)).1 (h ▸ hy)
      have hyr : y ≠ r := by
        rintro rfl
        refine hrf ?_
        rw [hf]
        rcases List.mem_append.mp hy with h | h <;> simp [h]
      simp [Ghost.links, Ghost.split, hyb, hyr]
  · show (f₁ ++ b :: r :: f₂).Nodup
    rw [show f₁ ++ b :: r :: f₂ = (f₁ ++ [b]) ++ r :: f₂ by simp, List.nodup_middle]
    refine List.nodup_cons.mpr ⟨?_, ?_⟩
    · simpa [hf] using hrf
    · simpa [hf] using hc.nodup
  · show x ∈ f₁ ++ b :: r :: f₂ ↔ x ∈ l₁ ++ b :: r :: l₂ ∧ _
    by_cases hxr : x = r
    · subst hxr
      simp [Ghost.split, hloose]
    · have h := hc.onList x
      rw [hl, hf] at h
      simpa [Ghost.split, hxr] using h
  · refine hc.cursor.imp id fun h => ?_
    show a.prevSearchEnd ∈ f₁ ++ b :: r :: f₂
    rw [hf] at h
    rcases List.mem_append.mp h with h | h
    · simp [h]
    · rcases List.mem_cons.mp h with h | h <;> simp [h]

end Coherent

namespace Ghost

variable {g : Ghost} {b n r : Nat} {l₁ l₂ f₁ f₂ : List Nat}

theorem freeBytes_split (hnd : g.free.Nodup) (hf : g.free = f₁ ++ b :: f₂) (hr : r ∉ g.free)
    (hn : n + 40 < g.size b) : (g.split b n r l₁ l₂ f₁ f₂).freeBytes + 40 = g.freeBytes := by
  rw [hf] at hnd hr
  have hb : b ∉ f₁ ++ f₂ := (List.nodup_cons.mp (List.nodup_middle.mp hnd)).1
  have hrb : b ≠ r := fun h => hr (by simp [h])
  have hkeep : ∀ l : List Nat, (∀ x ∈ l, x ∈ f₁ ++ f₂) →
      l.map (g.split b n r l₁ l₂ f₁ f₂).size = l.map g.size := by
    intro l hl
    refine List.map_congr_left fun x hx => ?_
    have hxm := hl x hx
    have hxb : x ≠ b := fun h => hb (h ▸ hxm)
    have hxr : x ≠ r := by
      rintro rfl
      refine hr ?_
      rcases List.mem_append.mp hxm with h | h <;> simp [h]
    simp [split, hxb, hxr]
  rw [freeBytes, freeBytes, hf, show (g.split b n r l₁ l₂ f₁ f₂).free = f₁ ++ b :: r :: f₂ from rfl,
    List.map_append, List.map_append, List.map_cons, List.map_cons, List.map_cons,
    hkeep f₁ fun x hx => by simp [hx], hkeep f₂ fun x hx => by simp [hx]]
  simp only [List.sum_append, List.sum_cons]
  simp only [split, Function.update_self, Function.update_of_ne hrb]
  omega

/-- Only `b` and `r` may be free side by side. -/
theorem Separate.split {a : Allocator} {loose : Option Nat} (hc : Coherent a g loose)
    (h : g.Separate []) (hl : g.blocks = l₁ ++ b :: l₂) (hf : g.isFree b = true)
    (hn : n + 40 < g.size b) (hr : r = b + (40 + n)) :
    (g.split b n r l₁ l₂ f₁ f₂).Separate [b] := by
  have hb : b ∈ g.blocks := by simp [hl]
  have hspan : g.span b = 40 + g.size b := rfl
  obtain ⟨hrb, -⟩ := hc.not_mem_of_inside (c := r) hb (by omega) (by omega)
  have hold : ∀ x ∈ (g.split b n r l₁ l₂ f₁ f₂).blocks, x ≠ r → x ∈ g.blocks := by
    intro x hx hxr
    have hx : x ∈ l₁ ++ b :: r :: l₂ := hx
    rw [hl]
    simpa [hxr] using hx
  have hfree : ∀ x, x ≠ r → (g.split b n r l₁ l₂ f₁ f₂).isFree x = g.isFree x := by
    intro x hxr
    simp [Ghost.split, hxr]
  intro x hx y hy hxy hfx hfy
  by_cases hxb : x = b
  · simp [hxb]
  · exfalso
    by_cases hxr : x = r
    · -- `r` ends where `b` did
      subst hxr
      have hend : b + g.span b = y := by
        rw [← hxy, Ghost.span, Ghost.span]
        simp only [Ghost.split, Function.update_self]
        omega
      have hyx : y ≠ x := by omega
      exact List.not_mem_nil
        (h b hb y (hold y hy hyx) hend hf (by rwa [hfree y hyx] at hfy))
    · have hxm := hold x hx hxr
      have hspanx : (g.split b n r l₁ l₂ f₁ f₂).span x = g.span x := by
        simp [Ghost.span, Ghost.split, hxb, hxr]
      rw [hspanx] at hxy
      have hyr : y ≠ r := by
        have := hc.tiles.apart hxm hb hxb
        have := g.span_pos x
        omega
      rw [hfree x hxr] at hfx
      rw [hfree y hyr] at hfy
      exact List.not_mem_nil (h x hxm y (hold y hy hyr) hxy hfx hfy)

end Ghost

/-! ### Blocks come and go at the end of the segment, and outside it -/

namespace Ghost

/-- A new block behind all others. -/
def extend (g : Ghost) (b n : Nat) (f : Bool) : Ghost :=
  { g with
    blocks := g.blocks ++ [b]
    size := Function.update g.size b n
    isFree := Function.update g.isFree b f
    next := Function.update g.next b 0 }

/-- A new block outside the segment. -/
def mapBlock (g : Ghost) (b n : Nat) : Ghost :=
  { g with
    maps := b :: g.maps
    size := Function.update g.size b n
    isFree := Function.update g.isFree b false
    next := Function.update g.next b 0 }

def drop (g : Ghost) (b : Nat) : Ghost := { g with blocks := g.blocks.erase b }

def unmap (g : Ghost) (b : Nat) : Ghost := { g with maps := g.maps.erase b }

end Ghost

namespace Coherent

variable {a : Allocator} {m : Memory} {os : Os} {g : Ghost} {b c n : Nat} {f : Bool}

/-- Before the first `sbrk` there is no block in the segment; after it, the last one ends at the
break. -/
theorem end_eq (hc : Coherent a g none) :
    (a.brkHeapStart = 0 ∧ a.brkHeapEnd = 0 ∧ g.blocks = []) ∨
      (0 < a.brkHeapStart ∧ a.brkHeapEnd = a.os.brk) := by
  rcases hc.brk with ⟨h₁, h₂⟩ | ⟨h₁, h₂⟩
  · refine .inl ⟨h₁, h₂, List.eq_nil_iff_forall_not_mem.mpr fun x hx => ?_⟩
    have := hc.tiles.mem hx
    have := g.span_pos x
    omega
  · have := a.os.startBrk_pos
    exact .inr ⟨by omega, h₂.symm⟩

theorem extend {start stop : Nat} (hc : Coherent a g none) (hb : b = a.os.brk)
    (hlt : b + 40 + n < 2 ^ 64)
    (hstart : start = if a.brkHeapStart = 0 then b else a.brkHeapStart)
    (hstop : stop = b + (40 + n))
    (hclear : ∀ x, b ≤ x → x < b + 40 + n → a.os.mapped x = false)
    (hsb : os.startBrk = a.os.startBrk) (hmap : os.mapped = a.os.mapped)
    (hbrk : os.brk = b + (40 + n)) (hnew : Holds m b ⟨n, f, false, 0⟩)
    (hm : ∀ y, ¬ (b ≤ y ∧ y < b + 40 + n) → m.byte y = a.mem.byte y) :
    Coherent { a with mem := m, os := os, brkHeapStart := start, brkHeapEnd := stop }
      (g.extend b n f) (if f then some b else none) := by
  have hs : (a.brkHeapStart = 0 ∧ start = b) ∨ (0 < a.brkHeapStart ∧ start = a.brkHeapStart) := by
    rw [hstart]
    split <;> omega
  have hle : ∀ x ∈ g.blocks, x + g.span x ≤ b := by
    intro x hx
    have h := (hc.tiles.mem hx).2
    rcases hc.end_eq with ⟨-, -, hnil⟩ | ⟨-, hend⟩
    · simp [hnil] at hx
    · omega
  have hblocks : ∀ x ∈ g.blocks, x ≠ b := by
    rintro x hx rfl
    have := hle x hx
    have := g.span_pos x
    omega
  have hmaps : ∀ x ∈ g.maps, x ≠ b ∧ (x + g.span x ≤ b ∨ b + 40 + n ≤ x) := by
    intro x hx
    have := g.span_pos x
    have hout := hc.maps_apart (by omega) hclear hx
    exact ⟨by omega, hout⟩
  have hheader : ∀ x, x ≠ b → ∀ f', (g.extend b n f).header f' x = g.header f' x := by
    intro x hx f'
    simp [Ghost.header, Ghost.extend, hx]
  have hspan : ∀ x, x ≠ b → (g.extend b n f).span x = g.span x := by
    intro x hx
    simp [Ghost.span, Ghost.extend, hx]
  have hself : (g.extend b n f).span b = 40 + n := by simp [Ghost.span, Ghost.extend]
  have hbf : b ∉ g.free := fun h => hblocks b (hc.mem_blocks h) rfl
  refine ⟨?_, ?_, .inr ?_, ?_, fun x h₁ h₂ => ?_, fun x hx => ?_, ?_, ?_, hc.nodup, fun x => ?_,
    hc.cursor⟩
  · refine hc.holding.frame hm (fun x hx => ?_) fun x hx => .inr ?_
    · rcases List.mem_append.mp hx with hx | hx
      · exact .inr ⟨hx, hheader x (hblocks x hx) false, .inl (hle x hx)⟩
      · obtain rfl := List.mem_singleton.mp hx
        exact .inl (by simpa [Ghost.header, Ghost.extend] using hnew)
    · exact ⟨hx, hheader x (hmaps x hx).1 true, (hmaps x hx).2⟩
  · refine Tiles.snoc.mpr ⟨?_, by rw [hself, hstop]⟩
    have hold := hc.tiles.congr fun x hx => hspan x (hblocks x hx)
    show Tiles _ start _ _
    rcases hc.end_eq with ⟨h0, -, hnil⟩ | ⟨h0, hend⟩
    · rw [hnil]
      show start = b
      omega
    · rw [show start = a.brkHeapStart by omega]
      rwa [hend, ← hb] at hold
  · have := a.os.startBrk_le
    have := hc.brk
    show os.startBrk ≤ start ∧ os.brk = stop
    rw [hsb, hbrk]
    omega
  · show stop < _
    omega
  · have h₁ : start ≤ x := h₁
    have h₂ : x < stop := h₂
    show os.mapped x = false
    rw [hmap]
    by_cases hxb : b ≤ x
    · exact hclear x hxb (by omega)
    · have := hc.end_eq
      exact hc.clear x (by omega) (by omega)
  · obtain ⟨hxb, -⟩ := hmaps x hx
    obtain ⟨h₁, h₂, h₃, h₄⟩ := hc.maps x hx
    rw [hspan x hxb, hmap]
    exact ⟨h₁, h₂, by simpa [Ghost.extend, hxb] using h₃, h₄⟩
  · refine hc.mapsApart.imp_of_mem fun {x y} hx hy hxy => ?_
    rw [hspan x (hmaps x hx).1, hspan y (hmaps y hy).1]
    exact hxy
  · refine hc.chain.congr fun y hy => ?_
    simp [Ghost.links, Ghost.extend, hblocks y (hc.mem_blocks hy)]
  · show x ∈ g.free ↔ x ∈ g.blocks ++ [b] ∧ _
    by_cases hxb : x = b
    · subst hxb
      cases f <;> simp [Ghost.extend, hbf]
    · cases f <;> simp [Ghost.extend, hxb, Ne.symm hxb, hc.onList]

theorem mapBlock (hc : Coherent a g none) (hpos : 0 < b) (hlt : b + 40 + n < 2 ^ 64)
    (hclear : ∀ x, b ≤ x → x < b + 40 + n → a.os.mapped x = false)
    (hseg : b + 40 + n ≤ a.os.startBrk ∨ a.os.brk ≤ b)
    (hsb : os.startBrk = a.os.startBrk) (hbrk : os.brk = a.os.brk)
    (hmap : ∀ x, os.mapped x = true ↔ (b ≤ x ∧ x < b + 40 + n) ∨ a.os.mapped x = true)
    (hnew : Holds m b ⟨n, false, true, 0⟩)
    (hm : ∀ y, ¬ (b ≤ y ∧ y < b + 40 + n) → m.byte y = a.mem.byte y) :
    Coherent { a with mem := m, os := os } (g.mapBlock b n) none := by
  have hheap : b + 40 + n ≤ a.brkHeapStart ∨ a.brkHeapEnd ≤ b := by
    rcases hc.brk with ⟨-, h⟩ | ⟨h₁, h₂⟩ <;> omega
  have hblocks : ∀ x ∈ g.blocks, x ≠ b ∧ (x + g.span x ≤ b ∨ b + 40 + n ≤ x) := by
    intro x hx
    obtain ⟨h₁, h₂⟩ := hc.tiles.mem hx
    have := g.span_pos x
    omega
  have hmaps : ∀ x ∈ g.maps, x ≠ b ∧ (x + g.span x ≤ b ∨ b + 40 + n ≤ x) := by
    intro x hx
    have := g.span_pos x
    have hout := hc.maps_apart (by omega) hclear hx
    exact ⟨by omega, hout⟩
  have hheader : ∀ x, x ≠ b → ∀ f', (g.mapBlock b n).header f' x = g.header f' x := by
    intro x hx f'
    simp [Ghost.header, Ghost.mapBlock, hx]
  have hspan : ∀ x, x ≠ b → (g.mapBlock b n).span x = g.span x := by
    intro x hx
    simp [Ghost.span, Ghost.mapBlock, hx]
  have hself : (g.mapBlock b n).span b = 40 + n := by simp [Ghost.span, Ghost.mapBlock]
  refine ⟨?_, hc.tiles.congr fun x hx => hspan x (hblocks x hx).1, ?_, hc.limit, fun x h₁ h₂ => ?_,
    fun x hx => ?_, ?_, ?_, hc.nodup, fun x => ?_, hc.cursor⟩
  · refine hc.holding.frame hm (fun x hx => .inr ?_) fun x hx => ?_
    · exact ⟨hx, hheader x (hblocks x hx).1 false, (hblocks x hx).2⟩
    · rcases List.mem_cons.mp hx with rfl | hx
      · exact .inl (by simpa [Ghost.header, Ghost.mapBlock] using hnew)
      · exact .inr ⟨hx, hheader x (hmaps x hx).1 true, (hmaps x hx).2⟩
  · rw [hsb, hbrk]
    exact hc.brk
  · have hno := hc.clear x h₁ h₂
    have h₁ : a.brkHeapStart ≤ x := h₁
    have h₂ : x < a.brkHeapEnd := h₂
    refine Bool.eq_false_iff.mpr fun h => ?_
    rcases (hmap x).mp h with h | h
    · omega
    · rw [hno] at h
      cases h
  · rcases List.mem_cons.mp hx with rfl | hx
    · rw [hself]
      refine ⟨hpos, by omega, by simp [Ghost.mapBlock], fun y h₁ h₂ => ?_⟩
      exact (hmap y).mpr (.inl ⟨h₁, by omega⟩)
    · obtain ⟨hxb, -⟩ := hmaps x hx
      obtain ⟨h₁, h₂, h₃, h₄⟩ := hc.maps x hx
      rw [hspan x hxb]
      exact ⟨h₁, h₂, by simpa [Ghost.mapBlock, hxb] using h₃, fun y hy hy' =>
        (hmap y).mpr (.inr (h₄ y hy hy'))⟩
  · refine List.pairwise_cons.mpr ⟨fun x hx => ?_, ?_⟩
    · rw [hself, hspan x (hmaps x hx).1]
      have := (hmaps x hx).2
      omega
    · refine hc.mapsApart.imp_of_mem fun {x y} hx hy hxy => ?_
      rw [hspan x (hmaps x hx).1, hspan y (hmaps y hy).1]
      exact hxy
  · refine hc.chain.congr fun y hy => ?_
    simp [Ghost.links, Ghost.mapBlock, (hblocks y (hc.mem_blocks hy)).1]
  · show x ∈ g.free ↔ x ∈ g.blocks ∧ _
    by_cases hxb : x = b
    · subst hxb
      have hnot : x ∉ g.blocks := fun h => (hblocks x h).1 rfl
      simp [hnot, hc.onList]
    · simp [Ghost.mapBlock, hxb, hc.onList]

theorem drop (hc : Coherent a g none) (hb : b ∈ g.blocks) (hf : g.isFree b = false)
    (hend : b + g.span b = a.brkHeapEnd) (hsb : os.startBrk = a.os.startBrk)
    (hmap : os.mapped = a.os.mapped) (hbrk : os.brk = b) :
    Coherent { a with os := os, brkHeapEnd := b } (g.drop b) none := by
  have hpos := g.span_pos b
  obtain ⟨l₁, l₂, hl⟩ := List.append_of_mem hb
  have htiles := hc.tiles
  have hnd := hc.blocks_nodup
  rw [hl] at htiles hnd
  obtain rfl := htiles.last (fun x _ => g.span_pos x) hend
  have hnot : b ∉ l₁ := fun h => List.disjoint_of_nodup_append hnd h List.mem_cons_self
  have herase : g.blocks.erase b = l₁ := by
    rw [hl, List.erase_append_right _ hnot, List.erase_cons_head, List.append_nil]
  refine ⟨⟨fun x hx => hc.holding.blocks x (List.mem_of_mem_erase hx), hc.holding.maps⟩, ?_,
    .inr ?_, ?_, fun x h₁ h₂ => ?_, ?_, hc.mapsApart, hc.chain, hc.nodup, fun x => ?_, hc.cursor⟩
  · show Tiles _ _ (g.blocks.erase b) _
    rw [herase]
    exact (Tiles.around.mp htiles).1
  · rw [hsb, hbrk]
    have := hc.pos hb
    refine ⟨?_, rfl⟩
    rcases hc.brk with ⟨-, h⟩ | ⟨h, -⟩
    · omega
    · exact h
  · have := hc.lt hb
    show b < _
    omega
  · rw [hmap]
    have h₂ : x < b := h₂
    exact hc.clear x h₁ (by omega)
  · rw [hmap]
    exact hc.maps
  · show x ∈ g.free ↔ x ∈ g.blocks.erase b ∧ g.isFree x = true ∧ none ≠ some x
    rw [hc.blocks_nodup.mem_erase_iff, hc.onList]
    by_cases hxb : x = b
    · simp [hxb, hf]
    · simp [hxb]

theorem unmap (hc : Coherent a g none) (hb : b ∈ g.maps) (hsb : os.startBrk = a.os.startBrk)
    (hbrk : os.brk = a.os.brk)
    (hmap : ∀ x, os.mapped x = true ↔ ¬ (b ≤ x ∧ x < b + g.span b) ∧ a.os.mapped x = true) :
    Coherent { a with os := os } (g.unmap b) none := by
  refine ⟨⟨hc.holding.blocks, fun x hx => hc.holding.maps x (List.mem_of_mem_erase hx)⟩, hc.tiles,
    ?_, hc.limit, fun x h₁ h₂ => ?_, fun x hx => ?_, hc.mapsApart.sublist List.erase_sublist,
    hc.chain, hc.nodup, hc.onList, hc.cursor⟩
  · rw [hsb, hbrk]
    exact hc.brk
  · have hno := hc.clear x h₁ h₂
    refine Bool.eq_false_iff.mpr fun h => ?_
    rw [((hmap x).mp h).2] at hno
    cases hno
  · obtain ⟨h₁, h₂, h₃, h₄⟩ := hc.maps x (List.mem_of_mem_erase hx)
    refine ⟨h₁, h₂, h₃, fun y hy (hy' : y < x + g.span x) => (hmap y).mpr ⟨?_, h₄ y hy hy'⟩⟩
    -- the other mapped blocks are apart from `b`
    have hperm := List.perm_cons_erase hb
    have hpair : (b :: g.maps.erase b).Pairwise fun b c =>
        b + g.span b ≤ c ∨ c + g.span c ≤ b :=
      (hperm.pairwise_iff fun h => h.symm).mp hc.mapsApart
    have := (List.pairwise_cons.mp hpair).1 x hx
    omega

end Coherent

end TieredAllocator.Old
