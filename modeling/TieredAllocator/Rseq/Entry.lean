import TieredAllocator.Rseq.Definitions

/-!
# Restartable sequences — on the way to the slab

The two sequences begin alike: they note the descriptor, read the CPU, and find its slab
(`prologue`, `enter_step`).  What a thread then reads of the slab, `view`, stays as it is while the
others work on other CPUs (`view_apart`).
-/

namespace TieredAllocator.Rseq
open Lib Slabs

variable {base count descriptor : Nat} {call : Call} {th th' : ThreadState Reg} {m m' : Memory}
  {f : Nat → Nat → List Nat} {o : SlabOp} {cpu sc : Nat}

/-- The slabs lie in the address space, and the class is one of the table. -/
structure Setting (base count sc : Nat) : Prop where
  count_lt : count < 2 ^ 32
  region : base + count * slabStrideBytes ≤ 2 ^ 64
  sc_pos : 1 ≤ sc
  sc_lt : sc < numSizeClasses

/-! ### Operands -/

def Reg.isInput : Reg → Bool
  | .base | .curOff | .slabCount | .scIdx | .ptr => true
  | _ => false

theorem Call.Inputs.update {regs : Reg → Nat} {r : Reg} (h : call.Inputs base count regs)
    (hr : r.isInput = false) (v : Nat) : call.Inputs base count (Function.update regs r v) := by
  have hne : ∀ r' : Reg, r'.isInput = true → Function.update regs r v r' = regs r' :=
    fun r' hr' => Function.update_of_ne (fun he => by simp [he, hr] at hr') v regs
  exact ⟨(hne _ rfl).trans h.base, (hne _ rfl).trans h.curOff, (hne _ rfl).trans h.slabCount,
    (hne _ rfl).trans h.scIdx, fun sc p hc => (hne _ rfl).trans (h.ptr sc p hc)⟩

/-! ### The slab as the thread sees it -/

structure View where
  cur : Nat
  slot : Nat → Nat

/-- The count of the class and its slice of the pointers, in the slab of the CPU. -/
def view (base sc cpu : Nat) (m : Memory) : View where
  cur := current m (getSlabs base cpu) sc
  slot i := if i < slabCapacity sc then pointer m (getSlabs base cpu) (slabOffset sc + i) else 0

theorem view_slot {i : Nat} (h : i < slabCapacity sc) :
    (view base sc cpu m).slot i = pointer m (getSlabs base cpu) (slabOffset sc + i) :=
  if_pos h

/-- What is stored in the stacks of another CPU does not concern the thread. -/
theorem view_wrote {cpu' sc' : Nat} (hw : Memory.Wrote (Cell base cpu' sc') m m')
    (hsc : sc < numSizeClasses) (hsc' : sc' < numSizeClasses) (hne : cpu' ≠ cpu) :
    view base sc cpu m' = view base sc cpu m := by
  have hload : ∀ a k, Cell base cpu sc a k → m'.load a k = m.load a k := fun a k hcell =>
    hw.load_eq fun _ _ h' => (h'.disjoint hsc' hsc (.inl hne) hcell).symm
  refine View.mk.injEq .. ▸ ⟨hload _ _ (.inl ⟨rfl, rfl⟩), funext fun i => ?_⟩
  split
  · exact hload _ _ (.inr (by omega))
  · rfl

theorem view_apart (h : Represents base count m f) (ho : o.Valid) (hsc : sc < numSizeClasses)
    (hne : o.cpu ≠ cpu) : view base sc cpu (o.apply base count m).2 = view base sc cpu m :=
  view_wrote (apply_spec h ho).2.2 hsc ho.sc_lt hne

/-! ### The first instructions -/

/-- The thread is in the sequence, on a CPU with a slab, and has found it. -/
structure AtSlab (base count descriptor : Nat) (th : ThreadState Reg) : Prop where
  rseqCs : th.rseqCs = descriptor
  cpu : th.cpu < count
  slab : th.regs .r8 = getSlabs base th.cpu

theorem getSlabs_lt (hregion : base + count * slabStrideBytes ≤ 2 ^ 64) (hcpu : cpu < count) :
    getSlabs base cpu + slabRawByteSize ≤ 2 ^ 64 := by
  have hslab := getSlabs_add_le base hcpu
  have hraw : slabRawByteSize ≤ slabStrideBytes := le_alignUp _ _
  rw [getSlabs, getSlabs] at *
  omega

/-- The thread's addresses in its slab. -/
theorem AtSlab.currentOf_eq (h : AtSlab base count descriptor th)
    (hin : call.Inputs base count th.regs) (hs : Setting base count call.sc) :
    th.address currentOf = getSlabs base th.cpu + 2 * call.sc := by
  have hlt64 := getSlabs_lt hs.region h.cpu
  have hraw : slabPointersOffset ≤ slabRawByteSize := Nat.le_add_right _ _
  have htwo := two_mul_numSizeClasses_le
  have hsc := hs.sc_lt
  show (0 + th.regs .r8 + th.regs .curOff * 1) % 2 ^ 64 = _
  rw [h.slab, hin.curOff, Nat.mod_eq_of_lt (by omega)]
  omega

theorem AtSlab.slotOf_eq {r : Reg} (h : AtSlab base count descriptor th)
    (hs : Setting base count sc)
    (hr : th.regs r < slabOffset numSizeClasses) :
    th.address (slotOf r) = getSlabs base th.cpu + slabPointersOffset + 8 * th.regs r := by
  have hlt64 := getSlabs_lt hs.region h.cpu
  rw [slabRawByteSize] at hlt64
  show (slabPointersOffset + th.regs .r8 + th.regs r * 8) % 2 ^ 64 = _
  rw [h.slab, Nat.mod_eq_of_lt (by omega)]
  omega

/-- Up to where the slab is found; `out` is where a thread goes whose CPU has none. -/
def prologue (out : Nat) : List (Instr Reg Table) :=
  [.leaDescriptor .rax, .setRseqCs .rax, .loadField .cpuIdStart .r10, .cmp .long .slabCount .r10,
    .jcc .ae out, .imul slabStrideBytes .r10 .r8, .add .quad .base .r8]

/-- What the thread knows before the instructions of `prologue`, and behind them. -/
def Entering (base count descriptor : Nat) (th : ThreadState Reg) : (pc : Nat) → Prop
  | 0 => True
  | 1 => th.regs .rax = descriptor
  | 2 => th.rseqCs = descriptor
  | 3 => th.rseqCs = descriptor ∧ th.regs .r10 = th.cpu
  | 4 => th.rseqCs = descriptor ∧ th.regs .r10 = th.cpu ∧ th.flags.carry = decide (th.cpu < count)
  | 5 => th.rseqCs = descriptor ∧ th.regs .r10 = th.cpu ∧ th.cpu < count
  | 6 => th.rseqCs = descriptor ∧ th.regs .r10 = th.cpu ∧ th.cpu < count ∧
      th.regs .r8 = th.cpu * slabStrideBytes
  | 7 => AtSlab base count descriptor th ∧ th.regs .r10 = th.cpu
  | _ => False

theorem slabRawByteSize_pos : 0 < slabRawByteSize := by decide +kernel

theorem trunc_long {v : Nat} (h : v < 2 ^ 32) : Width.long.trunc v = v := Nat.mod_eq_of_lt h

theorem signed_long {v : Nat} (h : v < 2 ^ 31) : Width.long.signed v = v := by
  rw [Width.signed, trunc_long (by omega), if_pos (by simp only [Width.bytes]; omega)]

theorem trunc_quad {v : Nat} (h : v < 2 ^ 64) : Width.quad.trunc v = v := Nat.mod_eq_of_lt h

theorem enter_step {s : Sequence Reg Table} {out n : Nat} (hs : Setting base count sc)
    (hcode : ∀ n < 7, s.code[n]? = (prologue out)[n]?) (hpc : th.pc = n) (hn : n < 7)
    (hcpu : th.cpu < 2 ^ 32) (hin : call.Inputs base count th.regs)
    (he : Entering base count s.descriptor th n)
    (hstep : s.step tables m th = some (th', m')) :
    m' = m ∧ th'.cpu = th.cpu ∧ call.Inputs base count th'.regs ∧
      ((th'.pc = n + 1 ∧ Entering base count s.descriptor th' (n + 1)) ∨
        (th'.pc = s.locate out ∧ count ≤ th.cpu)) := by
  have hexec : ∀ i, (prologue out)[n]? = some i → (th', m') = s.exec tables m th i :=
    fun i hi => Sequence.exec_of_step hpc hstep i ((hcode n hn).trans hi)
  match n, hn with
  | 0, _ =>
      obtain ⟨rfl, rfl⟩ : th' = th.set .rax s.descriptor ∧ m' = m := Prod.mk.inj (hexec _ rfl)
      exact ⟨rfl, rfl, hin.update rfl _, .inl ⟨by simp [hpc], by simp [Entering]⟩⟩
  | 1, _ =>
      obtain ⟨rfl, rfl⟩ : th' = { th.next with rseqCs := th.regs .rax } ∧ m' = m :=
        Prod.mk.inj (hexec _ rfl)
      exact ⟨rfl, rfl, hin, .inl ⟨by simp [hpc], he⟩⟩
  | 2, _ =>
      obtain ⟨rfl, rfl⟩ : th' = th.set .r10 th.cpu ∧ m' = m := Prod.mk.inj (hexec _ rfl)
      exact ⟨rfl, rfl, hin.update rfl _, .inl ⟨by simp [hpc], he, by simp⟩⟩
  | 3, _ =>
      obtain ⟨hcs, hr10⟩ := he
      obtain ⟨rfl, rfl⟩ : th' = { th.next with
          flags := .sub .long (th.regs .slabCount) (th.regs .r10) } ∧ m' = m :=
        Prod.mk.inj (hexec _ rfl)
      refine ⟨rfl, rfl, hin, .inl ⟨by simp [hpc], hcs, hr10, decide_eq_decide.mpr ?_⟩⟩
      rw [hr10, hin.slabCount, trunc_long hcpu, trunc_long hs.count_lt]
      rfl
  | 4, _ =>
      obtain ⟨hcs, hr10, hcarry⟩ := he
      have h : (th', m') =
          (if !th.flags.carry then { th with pc := s.locate out } else th.next, m) := hexec _ rfl
      rw [hcarry] at h
      by_cases hlt : th.cpu < count
      · simp only [decide_eq_true hlt, Bool.not_true, Bool.false_eq_true, if_false,
          Prod.mk.injEq] at h
        obtain ⟨rfl, rfl⟩ := h
        exact ⟨rfl, rfl, hin, .inl ⟨by simp [hpc], hcs, hr10, hlt⟩⟩
      · simp only [decide_eq_false hlt, Bool.not_false, if_true, Prod.mk.injEq] at h
        obtain ⟨rfl, rfl⟩ := h
        exact ⟨rfl, rfl, hin, .inr ⟨rfl, not_lt.mp hlt⟩⟩
  | 5, _ =>
      obtain ⟨hcs, hr10, hlt⟩ := he
      obtain ⟨rfl, rfl⟩ := Prod.mk.inj (hexec _ rfl)
      refine ⟨rfl, rfl, hin.update rfl _, .inl ⟨by simp [hpc], hcs, by simp [hr10], hlt, ?_⟩⟩
      have hlt64 := getSlabs_lt hs.region hlt
      have hpos := slabRawByteSize_pos
      rw [getSlabs] at hlt64
      simp only [ThreadState.set_regs, Function.update_self, hr10]
      exact trunc_quad (by omega)
  | 6, _ =>
      obtain ⟨hcs, hr10, hlt, hr8⟩ := he
      obtain ⟨rfl, rfl⟩ := Prod.mk.inj (hexec _ rfl)
      refine ⟨rfl, rfl, hin.update rfl _, .inl ⟨by simp [hpc], ⟨hcs, hlt, ?_⟩, by simp [hr10]⟩⟩
      have hlt64 := getSlabs_lt hs.region hlt
      have hpos := slabRawByteSize_pos
      rw [getSlabs] at hlt64
      simp only [ThreadState.set_regs, Function.update_self, hr8, hin.base, getSlabs]
      rw [trunc_quad (by omega), Nat.add_comm]
      rfl

/-! ### Interruptions -/

/-- A thread that notes its descriptor first, interrupted before the post-commit label or in the
abort handler, goes on in the handler, or at one of the two instructions that note it. -/
theorem restart_pc {s : Sequence Reg Table} (cpu : Nat) (hd : 0 < s.descriptor)
    (hstart : s.locate s.start = 0) (hle : s.locate s.postCommit ≤ s.locate s.abort)
    (hpc : th.pc < s.locate s.postCommit ∨ th.pc = s.locate s.abort)
    (hcs : 1 < th.pc → th.pc < s.locate s.abort → th.rseqCs = s.descriptor) :
    (s.interrupt cpu th).pc = s.locate s.abort ∨
      ((s.interrupt cpu th).pc = th.pc ∧ (th.pc = 0 ∨ th.pc = 1)) := by
  rcases hpc with hlt | habort
  · by_cases hin : th.rseqCs = s.descriptor
    · exact .inl (Sequence.interrupt_inside cpu hd hin (by omega) hlt)
    · refine .inr ⟨Sequence.interrupt_outside cpu (.inl hin), ?_⟩
      by_contra hpc
      exact hin (hcs (by omega) (by omega))
  · exact .inl ((Sequence.interrupt_outside cpu (.inr (by omega))).trans habort)

end TieredAllocator.Rseq
