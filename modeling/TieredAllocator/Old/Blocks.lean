import TieredAllocator.Lib.Tiling
import TieredAllocator.Lib.Linked
import TieredAllocator.Old.Definitions

/-!
# Old design — blocks in memory

`Holds m b x` says that the header at `b` reads `x` and that the footer behind the memory repeats
its size and its mode.  A `Ghost` says what the blocks are: those of the segment in the order of
their addresses, the mapped ones, the free list, and what the headers say; `Holding m g` that the
memory agrees.

A store inside a block leaves the others alone (`Holding.frame`); each of the edits that the
allocator makes is one lemma from it.
-/

namespace TieredAllocator.Old
open Lib

structure Header where
  size : Nat
  isFree : Bool
  mapped : Bool
  next : Nat

/-- The header at `b` reads `x`, and the footer agrees with it. -/
structure Holds (m : Memory) (b : Nat) (x : Header) : Prop where
  size : m.load b 8 = x.size
  isFree : m.load (b + 8) 1 = x.isFree.toNat
  mapped : m.load (b + 9) 1 = x.mapped.toNat
  next : m.load (b + 16) 8 = x.next
  footerSize : m.load (b + 24 + x.size) 8 = x.size
  footerMapped : m.load (b + 24 + x.size + 8) 1 = x.mapped.toNat

/-! ### One block -/

theorem bool_of_byte (v : Bool) : (v.toNat != 0) = v := by cases v <;> rfl

theorem bool_lt (v : Bool) : v.toNat < 256 ^ 1 := by cases v <;> decide

variable {a a' : Allocator} {m m' : Memory} {b c k v : Nat} {x : Header}

namespace Holds

/-- Only the header and the footer are read. -/
theorem congr (h : Holds m b x) (hh : ∀ y, b ≤ y → y < b + 24 → m'.byte y = m.byte y)
    (hf : ∀ y, b + 24 + x.size ≤ y → y < b + 40 + x.size → m'.byte y = m.byte y) :
    Holds m' b x where
  size := (Memory.load_congr 8 b fun y _ _ => hh y (by omega) (by omega)).trans h.size
  isFree := (Memory.load_congr 1 (b + 8) fun y _ _ => hh y (by omega) (by omega)).trans h.isFree
  mapped := (Memory.load_congr 1 (b + 9) fun y _ _ => hh y (by omega) (by omega)).trans h.mapped
  next := (Memory.load_congr 8 (b + 16) fun y _ _ => hh y (by omega) (by omega)).trans h.next
  footerSize :=
    (Memory.load_congr 8 _ fun y _ _ => hf y (by omega) (by omega)).trans h.footerSize
  footerMapped :=
    (Memory.load_congr 1 _ fun y _ _ => hf y (by omega) (by omega)).trans h.footerMapped

/-- The memory of the block belongs to the client. -/
theorem write (h : Holds m b x) (h₁ : b + 24 ≤ c) (h₂ : c + k ≤ b + 24 + x.size) :
    Holds (m.store c k v) b x :=
  h.congr (fun y _ _ => Memory.store_byte_of_not_mem (by omega)) fun y _ _ =>
    Memory.store_byte_of_not_mem (by omega)

theorem size_eq (h : Holds a.mem b x) : a.size b = x.size := h.size

theorem isFree_eq (h : Holds a.mem b x) : a.isFree b = x.isFree := by
  rw [Allocator.isFree, h.isFree, bool_of_byte]

theorem mapped_eq (h : Holds a.mem b x) : a.mapped b = x.mapped := by
  rw [Allocator.mapped, h.mapped, bool_of_byte]

theorem next_eq (h : Holds a.mem b x) : a.next b = x.next := h.next

theorem blockSpan_eq (h : Holds a.mem b x) (hx : b + 40 + x.size < 2 ^ 64) :
    a.blockSpan b = 40 + x.size := by
  rw [Allocator.blockSpan, h.size_eq, overheadSize, headerSize, Old.footerSize, add64_eq (by omega)]

theorem blockEnd_eq (h : Holds a.mem b x) (hx : b + 40 + x.size < 2 ^ 64) :
    a.blockEnd b = b + (40 + x.size) := by
  rw [Allocator.blockEnd, h.blockSpan_eq hx, add64_eq (by omega)]

theorem setNext (h : Holds a.mem b x) (hv : v < 2 ^ 64) :
    Holds (a.setNext b v).mem b { x with next := v } where
  size := (Memory.load_store_of_disjoint (by omega)).trans h.size
  isFree := (Memory.load_store_of_disjoint (by omega)).trans h.isFree
  mapped := (Memory.load_store_of_disjoint (by omega)).trans h.mapped
  next := Memory.load_store_self_of_lt (by omega)
  footerSize := (Memory.load_store_of_disjoint (by dsimp only; omega)).trans h.footerSize
  footerMapped := (Memory.load_store_of_disjoint (by dsimp only; omega)).trans h.footerMapped

theorem setIsFree (h : Holds a.mem b x) (f : Bool) :
    Holds (a.setIsFree b f).mem b { x with isFree := f } where
  size := (Memory.load_store_of_disjoint (by omega)).trans h.size
  isFree := Memory.load_store_self_of_lt (bool_lt f)
  mapped := (Memory.load_store_of_disjoint (by omega)).trans h.mapped
  next := (Memory.load_store_of_disjoint (by omega)).trans h.next
  footerSize := (Memory.load_store_of_disjoint (by dsimp only; omega)).trans h.footerSize
  footerMapped := (Memory.load_store_of_disjoint (by dsimp only; omega)).trans h.footerMapped

end Holds

/-! ### Headers and footers written anew -/

namespace Allocator

/-- `write_footer` behind a header whose size and mode are known. -/
theorem writeFooter_mem {n : Nat} {f : Bool} (hs : a.size b = n) (hf : a.mapped b = f)
    (hn : b + 40 + n < 2 ^ 64) :
    (a.writeFooter b).mem = (a.mem.store (b + 24 + n) 8 n).store (b + 24 + n + 8) 1 f.toNat := by
  have hfoot : a.footerOf b = b + 24 + n := by
    rw [footerOf, hs, headerSize, add64_eq (by omega)]
  rw [writeFooter, hfoot, hs, hf]

/-- The size of `block` becomes `n`, in the header and in a new footer. -/
def resize (a : Allocator) (block n : Nat) : Allocator := (a.setSize block n).writeFooter block

/-- A header and a footer, written field by field. -/
def format (a : Allocator) (block n : Nat) (isFree mapped : Bool) (next : Nat) : Allocator :=
  ((((a.setSize block n).setIsFree block isFree).setMapped block mapped).setNext block
    next).writeFooter block

theorem resize_def (a : Allocator) (block n : Nat) :
    a.resize block n = (a.setSize block n).writeFooter block := rfl

theorem format_def (a : Allocator) (block n : Nat) (isFree mapped : Bool) (next : Nat) :
    a.format block n isFree mapped next =
      ((((a.setSize block n).setIsFree block isFree).setMapped block mapped).setNext block
        next).writeFooter block := rfl

/-- Only the memory differs. -/
def SameRegs (a a' : Allocator) : Prop := a' = { a with mem := a'.mem }

theorem SameRegs.trans {a'' : Allocator} (h : a.SameRegs a') (h' : a'.SameRegs a'') :
    a.SameRegs a'' := by
  rw [SameRegs] at h h' ⊢
  rw [h] at h'
  exact h'

theorem sameRegs_setNext (a : Allocator) (b v : Nat) : a.SameRegs (a.setNext b v) := rfl

theorem sameRegs_resize (a : Allocator) (b n : Nat) : a.SameRegs (a.resize b n) := rfl

theorem sameRegs_format (a : Allocator) (b n : Nat) (f g : Bool) (next : Nat) :
    a.SameRegs (a.format b n f g next) := rfl

variable {n : Nat}

theorem resize_mem {f : Bool} (hf : a.mapped b = f) (hn : b + 40 + n < 2 ^ 64) :
    (a.resize b n).mem = ((a.mem.store b 8 n).store (b + 24 + n) 8 n).store (b + 24 + n + 8) 1
      f.toNat := by
  refine writeFooter_mem (Memory.load_store_self_of_lt (by omega)) ?_ hn
  rw [← hf, mapped, mapped]
  exact congrArg (· != 0) (Memory.load_store_of_disjoint (by omega))

theorem resize_holds (h : Holds a.mem b x) (hn : b + 40 + n < 2 ^ 64) :
    Holds (a.resize b n).mem b { x with size := n } := by
  rw [resize_mem h.mapped_eq hn]
  refine ⟨?_, ?_, ?_, ?_, ?_, ?_⟩
  · rw [Memory.load_store_of_disjoint (by omega), Memory.load_store_of_disjoint (by omega),
      Memory.load_store_self_of_lt (by omega)]
  · rw [Memory.load_store_of_disjoint (by omega), Memory.load_store_of_disjoint (by omega),
      Memory.load_store_of_disjoint (by omega), h.isFree]
  · rw [Memory.load_store_of_disjoint (by omega), Memory.load_store_of_disjoint (by omega),
      Memory.load_store_of_disjoint (by omega), h.mapped]
  · rw [Memory.load_store_of_disjoint (by omega), Memory.load_store_of_disjoint (by omega),
      Memory.load_store_of_disjoint (by omega), h.next]
  · rw [Memory.load_store_of_disjoint (by dsimp only; omega),
      Memory.load_store_self_of_lt (by omega)]
  · rw [Memory.load_store_self_of_lt (bool_lt _)]

theorem resize_frame (h : Holds a.mem b x) (hn : b + 40 + n < 2 ^ 64) {y : Nat}
    (hy : ¬ (b ≤ y ∧ y < b + 40 + n)) : (a.resize b n).mem.byte y = a.mem.byte y := by
  rw [resize_mem h.mapped_eq hn, Memory.store_byte_of_not_mem (by omega),
    Memory.store_byte_of_not_mem (by omega), Memory.store_byte_of_not_mem (by omega)]

theorem format_mem {f g : Bool} {next : Nat} (hn : b + 40 + n < 2 ^ 64) :
    (a.format b n f g next).mem = (((((a.mem.store b 8 n).store (b + 8) 1 f.toNat).store (b + 9) 1
      g.toNat).store (b + 16) 8 next).store (b + 24 + n) 8 n).store (b + 24 + n + 8) 1 g.toNat := by
  refine writeFooter_mem ?_ ?_ hn
  · refine (Memory.load_store_of_disjoint (by omega)).trans ?_
    refine (Memory.load_store_of_disjoint (by omega)).trans ?_
    refine (Memory.load_store_of_disjoint (by omega)).trans ?_
    exact Memory.load_store_self_of_lt (by omega)
  · rw [mapped, ← bool_of_byte g]
    refine congrArg (· != 0) ((Memory.load_store_of_disjoint (by omega)).trans ?_)
    rw [bool_of_byte]
    exact Memory.load_store_self_of_lt (bool_lt g)

theorem format_holds {f g : Bool} {next : Nat} (hn : b + 40 + n < 2 ^ 64) (hv : next < 2 ^ 64) :
    Holds (a.format b n f g next).mem b ⟨n, f, g, next⟩ := by
  rw [format_mem hn]
  refine ⟨?_, ?_, ?_, ?_, ?_, ?_⟩
  · rw [Memory.load_store_of_disjoint (by omega), Memory.load_store_of_disjoint (by omega),
      Memory.load_store_of_disjoint (by omega), Memory.load_store_of_disjoint (by omega),
      Memory.load_store_of_disjoint (by omega), Memory.load_store_self_of_lt (by omega)]
  · rw [Memory.load_store_of_disjoint (by omega), Memory.load_store_of_disjoint (by omega),
      Memory.load_store_of_disjoint (by omega), Memory.load_store_of_disjoint (by omega),
      Memory.load_store_self_of_lt (bool_lt f)]
  · rw [Memory.load_store_of_disjoint (by omega), Memory.load_store_of_disjoint (by omega),
      Memory.load_store_of_disjoint (by omega), Memory.load_store_self_of_lt (bool_lt g)]
  · rw [Memory.load_store_of_disjoint (by omega), Memory.load_store_of_disjoint (by omega),
      Memory.load_store_self_of_lt (by omega)]
  · rw [Memory.load_store_of_disjoint (by dsimp only; omega),
      Memory.load_store_self_of_lt (by omega)]
  · rw [Memory.load_store_self_of_lt (bool_lt g)]

theorem format_frame {f g : Bool} {next y : Nat} (hn : b + 40 + n < 2 ^ 64)
    (hy : ¬ (b ≤ y ∧ y < b + 40 + n)) : (a.format b n f g next).mem.byte y = a.mem.byte y := by
  rw [format_mem hn, Memory.store_byte_of_not_mem (by omega),
    Memory.store_byte_of_not_mem (by omega), Memory.store_byte_of_not_mem (by omega),
    Memory.store_byte_of_not_mem (by omega), Memory.store_byte_of_not_mem (by omega),
    Memory.store_byte_of_not_mem (by omega)]

/-- A block is formatted inside itself. -/
theorem format_spec {f g : Bool} {next : Nat} (hn : b + 40 + n < 2 ^ 64) (hv : next < 2 ^ 64) :
    ∃ m, a.format b n f g next = { a with mem := m } ∧ Holds m b ⟨n, f, g, next⟩ ∧
      ∀ y, ¬ (b ≤ y ∧ y < b + 40 + n) → m.byte y = a.mem.byte y :=
  ⟨_, a.sameRegs_format b n f g next, format_holds hn hv, fun _ => format_frame hn⟩

end Allocator

/-! ### All blocks -/

/-- The blocks, and what their headers say. -/
structure Ghost where
  /-- the blocks of the segment, in the order of their addresses -/
  blocks : List Nat
  /-- the mapped blocks -/
  maps : List Nat
  /-- the free list -/
  free : List Nat
  size : Nat → Nat
  isFree : Nat → Bool
  next : Nat → Nat

namespace Ghost

/-- `block_span`. -/
def span (g : Ghost) (b : Nat) : Nat := 40 + g.size b

def header (g : Ghost) (mapped : Bool) (b : Nat) : Header :=
  ⟨g.size b, g.isFree b, mapped, g.next b⟩

def setNext (g : Ghost) (b v : Nat) : Ghost := { g with next := Function.update g.next b v }

def setIsFree (g : Ghost) (b : Nat) (f : Bool) : Ghost :=
  { g with isFree := Function.update g.isFree b f }

theorem span_pos (g : Ghost) (b : Nat) : 0 < g.span b := by
  rw [span]
  omega

/-- No block overlaps a block of the segment. -/
structure Apart (g : Ghost) : Prop where
  blocks : ∀ b ∈ g.blocks, ∀ c ∈ g.blocks, b ≠ c → b + g.span b ≤ c ∨ c + g.span c ≤ b
  maps : ∀ b ∈ g.blocks, ∀ c ∈ g.maps, b + g.span b ≤ c ∨ c + g.span c ≤ b

theorem Apart.ne {g : Ghost} (ap : g.Apart) (hb : b ∈ g.blocks) (hc : c ∈ g.maps) : c ≠ b := by
  rintro rfl
  have := ap.maps c hb c hc
  have := g.span_pos c
  omega

end Ghost

structure Holding (m : Memory) (g : Ghost) : Prop where
  blocks : ∀ b ∈ g.blocks, Holds m b (g.header false b)
  maps : ∀ b ∈ g.maps, Holds m b (g.header true b)

namespace Holding

variable {g g' : Ghost} {lo hi : Nat}

/-- Nothing changes outside the range from `lo` to `hi`, so a block outside it is what it was. -/
theorem frame (h : Holding m g) (hm : ∀ y, ¬ (lo ≤ y ∧ y < hi) → m'.byte y = m.byte y)
    (hblocks : ∀ c ∈ g'.blocks, Holds m' c (g'.header false c) ∨
      c ∈ g.blocks ∧ g'.header false c = g.header false c ∧ (c + g.span c ≤ lo ∨ hi ≤ c))
    (hmaps : ∀ c ∈ g'.maps, Holds m' c (g'.header true c) ∨
      c ∈ g.maps ∧ g'.header true c = g.header true c ∧ (c + g.span c ≤ lo ∨ hi ≤ c)) :
    Holding m' g' := by
  have hkeep : ∀ {c f}, Holds m c (g.header f c) → (c + g.span c ≤ lo ∨ hi ≤ c) →
      Holds m' c (g.header f c) := by
    intro c f hc hout
    simp only [Ghost.span] at hout
    refine hc.congr (fun y _ _ => hm y ?_) fun y hy hy' => hm y ?_
    · omega
    · simp only [Ghost.header] at hy hy'
      omega
  constructor
  · intro c hc
    rcases hblocks c hc with hnew | ⟨hold, heq, hout⟩
    · exact hnew
    · rw [heq]
      exact hkeep (h.blocks c hold) hout
  · intro c hc
    rcases hmaps c hc with hnew | ⟨hold, heq, hout⟩
    · exact hnew
    · rw [heq]
      exact hkeep (h.maps c hold) hout

/-- A store inside the block `b` that leaves it a block. -/
theorem edit (h : Holding m g) (ap : g.Apart) (hb : b ∈ g.blocks)
    (hm : ∀ y, ¬ (b ≤ y ∧ y < b + g.span b) → m'.byte y = m.byte y)
    (hb' : Holds m' b (g'.header false b)) (hblocks : g'.blocks = g.blocks)
    (hmaps : g'.maps = g.maps) (hhdr : ∀ c ≠ b, ∀ f, g'.header f c = g.header f c) :
    Holding m' g' := by
  refine h.frame hm (fun c hc => ?_) fun c hc => .inr ?_
  · rw [hblocks] at hc
    by_cases hcb : c = b
    · exact .inl (hcb ▸ hb')
    · refine .inr ⟨hc, hhdr c hcb false, ?_⟩
      rcases ap.blocks b hb c hc (Ne.symm hcb) with h | h
      · exact .inr h
      · exact .inl h
  · rw [hmaps] at hc
    refine ⟨hc, hhdr c (ap.ne hb hc) true, ?_⟩
    rcases ap.maps b hb c hc with h | h
    · exact .inr h
    · exact .inl h

theorem setNext (h : Holding a.mem g) (ap : g.Apart) (hb : b ∈ g.blocks) (hv : v < 2 ^ 64) :
    Holding (a.setNext b v).mem (g.setNext b v) := by
  refine h.edit ap hb (fun y hy => ?_) ?_ rfl rfl fun c hc f => ?_
  · exact Memory.store_byte_of_not_mem (by rw [Ghost.span] at hy; omega)
  · have := (h.blocks b hb).setNext hv
    simpa [Ghost.header, Ghost.setNext] using this
  · simp [Ghost.header, Ghost.setNext, hc]

theorem setIsFree (h : Holding a.mem g) (ap : g.Apart) (hb : b ∈ g.blocks) (f : Bool) :
    Holding (a.setIsFree b f).mem (g.setIsFree b f) := by
  refine h.edit ap hb (fun y hy => ?_) ?_ rfl rfl fun c hc f => ?_
  · exact Memory.store_byte_of_not_mem (by rw [Ghost.span] at hy; omega)
  · have := (h.blocks b hb).setIsFree f
    simpa [Ghost.header, Ghost.setIsFree] using this
  · simp [Ghost.header, Ghost.setIsFree, hc]

end Holding

end TieredAllocator.Old
