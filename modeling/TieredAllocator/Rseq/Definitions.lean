import TieredAllocator.Lib.Assembly
import TieredAllocator.Lib.Preemption
import TieredAllocator.Caches.Family

/-!
# Restartable sequences — definitions

`rseq_slab_pop` and `rseq_slab_push` of `slabs.hpp`, instruction by instruction under the labels of
the source.  A thread runs one of them on the slabs at `base`; the kernel may interrupt it before
any instruction, and let other threads push and pop before it goes on.  Meanwhile the threads on the
other CPUs push and pop.  What the others do is complete when it is done.
-/

namespace TieredAllocator.Rseq
open Lib

/-- The registers of the sequences, and the operands that the compiler puts into registers. -/
inductive Reg where
  | rax | rdx | r8 | r9 | r10 | r11
  | base | curOff | slabCount | scIdx | ptr
  | result | ok | usedFastpath
deriving DecidableEq

/-- `SIZE_CLASS_OFFSETS` and `SIZE_CLASS_CAPACITIES`. -/
inductive Table where
  | offsets | caps

def tables : Table → Nat → Nat
  | .offsets => slabOffset
  | .caps => slabCapacity

/-- `(%r8, cur_off, 1)`. -/
def currentOf : Address Reg := { base := .r8, index := .curOff, scale := 1 }

/-- `ptr_off(%r8, index, 8)`. -/
def slotOf (index : Reg) : Address Reg :=
  { disp := slabPointersOffset, base := .r8, index := index, scale := 8 }

/-- The code of `rseq_slab_pop`, with its descriptor at `descriptor`. -/
def rseqSlabPop (descriptor : Nat) : Sequence Reg Table where
  descriptor := descriptor
  start := 12
  postCommit := 13
  abort := 14
  blocks := [
    (12, [
      .leaDescriptor .rax,
      .setRseqCs .rax,
      .loadField .cpuIdStart .r10,
      .cmp .long .slabCount .r10,
      .jcc .ae 17,
      .imul slabStrideBytes .r10 .r8,
      .add .quad .base .r8,
      .load .word currentOf .rax,
      .loadField .cpuId .r11,
      .cmp .long .r10 .r11,
      .jcc .ne 12,
      .test .long .rax .rax,
      .jcc .be 15,
      .lea (-1) .rax .rdx,
      .loadTable .offsets .scIdx .rax,
      .add .long .rdx .rax,
      .load .quad (slotOf .rax) .r9,
      -- the commit
      .store .word .rdx currentOf,
      .xor .quad .rax .rax,
      .setRseqCs .rax,
      .mov .long (.imm 1) .usedFastpath]),
    (13, [
      .mov .quad (.reg .r9) .result,
      .jmp 16]),
    -- empty
    (15, [
      .xor .quad .rax .rax,
      .setRseqCs .rax,
      .mov .long (.imm 1) .usedFastpath,
      .xor .quad .result .result,
      .jmp 16]),
    -- the CPU has no slab
    (17, [
      .xor .quad .rax .rax,
      .setRseqCs .rax,
      .xor .long .usedFastpath .usedFastpath,
      .xor .quad .result .result,
      .jmp 16]),
    (14, [.jmp 12]),
    (16, [])]

/-- The code of `rseq_slab_push`. -/
def rseqSlabPush (descriptor : Nat) : Sequence Reg Table where
  descriptor := descriptor
  start := 22
  postCommit := 23
  abort := 24
  blocks := [
    (22, [
      .leaDescriptor .rax,
      .setRseqCs .rax,
      .loadField .cpuIdStart .r10,
      .cmp .long .slabCount .r10,
      .jcc .ae 27,
      .imul slabStrideBytes .r10 .r8,
      .add .quad .base .r8,
      .load .word currentOf .rax,
      .loadTable .caps .scIdx .r9,
      .loadField .cpuId .r11,
      .cmp .long .r10 .r11,
      .jcc .ne 22,
      .cmp .long .r9 .rax,
      .jcc .ge 25,
      .loadTable .offsets .scIdx .r10,
      .add .long .rax .r10,
      -- the free slot, above the top
      .store .quad .ptr (slotOf .r10),
      -- the commit
      .inc .long .rax,
      .store .word .rax currentOf,
      .xor .quad .rax .rax,
      .setRseqCs .rax,
      .mov .long (.imm 1) .usedFastpath]),
    (23, [
      .mov .long (.imm 1) .ok,
      .jmp 26]),
    -- full
    (25, [
      .xor .quad .rax .rax,
      .setRseqCs .rax,
      .mov .long (.imm 1) .usedFastpath,
      .xor .long .ok .ok,
      .jmp 26]),
    -- the CPU has no slab
    (27, [
      .xor .quad .rax .rax,
      .setRseqCs .rax,
      .xor .long .usedFastpath .usedFastpath,
      .xor .long .ok .ok,
      .jmp 26]),
    (24, [.jmp 22]),
    (26, [])]

/-! ### Calls -/

inductive Call where
  | pop (sc : Nat)
  | push (sc ptr : Nat)

namespace Call

def sequence (descriptor : Nat) : Call → Sequence Reg Table
  | .pop _ => rseqSlabPop descriptor
  | .push _ _ => rseqSlabPush descriptor

/-- The operation that the call stands for, on the CPU it is done on. -/
def op (cpu : Nat) : Call → SlabOp
  | .pop sc => .pop cpu sc
  | .push sc ptr => .push cpu sc ptr

/-- `RseqSlabPopResult`, `RseqSlabPushResult` without `used_fastpath`. -/
def answer (regs : Reg → Nat) : Call → SlabAnswer
  | .pop _ => .popped (regs .result)
  | .push _ _ => .pushed (regs .ok != 0)

def sc : Call → Nat
  | .pop sc => sc
  | .push sc _ => sc

/-- What the compiler puts into the input operands. -/
structure Inputs (base count : Nat) (call : Call) (regs : Reg → Nat) : Prop where
  base : regs .base = base
  curOff : regs .curOff = call.sc * 2
  slabCount : regs .slabCount = count
  scIdx : regs .scIdx = call.sc
  ptr : ∀ sc p, call = .push sc p → regs .ptr = p

end Call

/-- The slabs at `base` and the operations on them, as a family of stacks. -/
def service (base count : Nat) : Service Memory SlabOp SlabAnswer (Nat → Nat → List Nat) where
  apply m o := o.apply base count m
  spec f o := o.onLists count f
  Valid := SlabOp.Valid
  Rep := Slabs.Represents base count
  refines h ho := ⟨(Slabs.apply_spec h ho).1, (Slabs.apply_spec h ho).2.1⟩

/-- A thread in the code of the call, next to the threads that push and pop.  CPU ids are 32-bit
numbers. -/
def scene (base count descriptor : Nat) (call : Call) :
    Scene (ThreadState Reg) Memory SlabOp SlabAnswer (Nat → Nat → List Nat) where
  toService := service base count
  step := (call.sequence descriptor).step tables
  interrupt := (call.sequence descriptor).interrupt
  cpu := ThreadState.cpu
  site := SlabOp.cpu
  IsCpu cpu := cpu < 2 ^ 32

end TieredAllocator.Rseq
