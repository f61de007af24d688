import TieredAllocator.Lib.Memory

/-!
# Library — restartable sequences

The instructions of x86-64 that restartable sequences are written with, in the order of the
operands that the GNU assembler has (source first), over registers `ρ` of 64 bits and read-only
tables `κ` of 32-bit words.  A `Sequence` is code under numbered labels and the descriptor that
names three of them.

While the kernel's word `rseq_cs` holds the address of the descriptor and the next instruction lies
between the start label and the post-commit label, an interruption moves the thread to the abort
label; any interruption clears the word (`Sequence.interrupt`).
-/

namespace TieredAllocator.Lib

inductive Width where
  | word | long | quad

def Width.bytes : Width → Nat
  | .word => 2
  | .long => 4
  | .quad => 8

/-- The value modulo the width. -/
def Width.trunc (w : Width) (v : Nat) : Nat := v % 256 ^ w.bytes

/-- The value as a signed number of that width. -/
def Width.signed (w : Width) (v : Nat) : Int :=
  if 2 * w.trunc v < 256 ^ w.bytes then w.trunc v else (w.trunc v : Int) - 256 ^ w.bytes

/-- `ZF`, `CF`, and `SF ≠ OF`. -/
structure Flags where
  zero : Bool
  carry : Bool
  less : Bool
deriving DecidableEq

inductive Cond where
  | ae | be | ne | ge

def Cond.holds (f : Flags) : Cond → Bool
  | .ae => !f.carry
  | .be => f.carry || f.zero
  | .ne => !f.zero
  | .ge => !f.less

/-- Of `b - a`. -/
def Flags.sub (w : Width) (a b : Nat) : Flags :=
  ⟨w.trunc b = w.trunc a, w.trunc b < w.trunc a, w.signed b < w.signed a⟩

/-- Of `a + b`. -/
def Flags.add (w : Width) (a b : Nat) : Flags :=
  ⟨w.trunc (a + b) = 0, 256 ^ w.bytes ≤ w.trunc a + w.trunc b, w.signed a + w.signed b < 0⟩

/-- Of the result of a bitwise operation. -/
def Flags.logic (w : Width) (v : Nat) : Flags := ⟨w.trunc v = 0, false, w.signed v < 0⟩

/-- `disp(base, index, scale)`. -/
structure Address (ρ : Type) where
  disp : Nat := 0
  base : ρ
  index : ρ
  scale : Nat

inductive Source (ρ : Type) where
  | imm (n : Nat)
  | reg (r : ρ)

/-- The fields of `struct rseq` that say which CPU the thread is on. -/
inductive RseqField where
  | cpuIdStart | cpuId

inductive Instr (ρ κ : Type) where
  /-- `leaq` of the descriptor, `(%rip)` -/
  | leaDescriptor (dst : ρ)
  /-- `leal disp(src), dst` -/
  | lea (disp : Int) (src dst : ρ)
  | mov (w : Width) (src : Source ρ) (dst : ρ)
  /-- `movzwl`, `movl`, `movq` from memory -/
  | load (w : Width) (src : Address ρ) (dst : ρ)
  | store (w : Width) (src : ρ) (dst : Address ρ)
  /-- `movl (table, index, 4), dst` -/
  | loadTable (table : κ) (index dst : ρ)
  | loadField (field : RseqField) (dst : ρ)
  /-- `movq src` to the word `rseq_cs` -/
  | setRseqCs (src : ρ)
  | imul (n : Nat) (src dst : ρ)
  | add (w : Width) (src dst : ρ)
  | xor (w : Width) (src dst : ρ)
  | inc (w : Width) (dst : ρ)
  | cmp (w : Width) (src dst : ρ)
  | test (w : Width) (src dst : ρ)
  | jcc (c : Cond) (label : Nat)
  | jmp (label : Nat)

/-- The thread, and what the kernel keeps for it: the word `rseq_cs` and the CPU. -/
structure ThreadState (ρ : Type) where
  regs : ρ → Nat
  flags : Flags
  pc : Nat
  rseqCs : Nat
  cpu : Nat

/-- Code under numbered labels, in order, and where its descriptor lies and points to. -/
structure Sequence (ρ κ : Type) where
  blocks : List (Nat × List (Instr ρ κ))
  descriptor : Nat
  start : Nat
  postCommit : Nat
  abort : Nat

variable {ρ κ : Type}

namespace ThreadState

def next (th : ThreadState ρ) : ThreadState ρ := { th with pc := th.pc + 1 }

def set [DecidableEq ρ] (th : ThreadState ρ) (r : ρ) (v : Nat) : ThreadState ρ :=
  { th with regs := Function.update th.regs r v, pc := th.pc + 1 }

def source (th : ThreadState ρ) : Source ρ → Nat
  | .imm n => n
  | .reg r => th.regs r

def address (th : ThreadState ρ) (a : Address ρ) : Nat :=
  (a.disp + th.regs a.base + th.regs a.index * a.scale) % 2 ^ 64

variable {th : ThreadState ρ} {r : ρ} {v : Nat}

@[simp] theorem next_regs : th.next.regs = th.regs := rfl
@[simp] theorem next_pc : th.next.pc = th.pc + 1 := rfl
@[simp] theorem next_rseqCs : th.next.rseqCs = th.rseqCs := rfl
@[simp] theorem next_cpu : th.next.cpu = th.cpu := rfl

variable [DecidableEq ρ]

@[simp] theorem set_regs : (th.set r v).regs = Function.update th.regs r v := rfl
@[simp] theorem set_pc : (th.set r v).pc = th.pc + 1 := rfl
@[simp] theorem set_rseqCs : (th.set r v).rseqCs = th.rseqCs := rfl
@[simp] theorem set_cpu : (th.set r v).cpu = th.cpu := rfl

end ThreadState

namespace Sequence

def code (s : Sequence ρ κ) : List (Instr ρ κ) := s.blocks.flatMap Prod.snd

/-- Where the code under the label begins. -/
def locate (s : Sequence ρ κ) (label : Nat) : Nat :=
  ((s.blocks.takeWhile fun b => b.1 != label).map fun b => b.2.length).sum

/-- The kernel stops the thread and lets it go on on `cpu`. -/
def interrupt (s : Sequence ρ κ) (cpu : Nat) (th : ThreadState ρ) : ThreadState ρ :=
  { th with
    pc :=
      if th.rseqCs ≠ 0 ∧ th.rseqCs = s.descriptor ∧ s.locate s.start ≤ th.pc ∧
          th.pc < s.locate s.postCommit then
        s.locate s.abort
      else th.pc
    rseqCs := 0
    cpu := cpu }

/-- A thread inside the sequence goes on at the abort label. -/
theorem interrupt_inside {s : Sequence ρ κ} {th : ThreadState ρ} (cpu : Nat)
    (hd : 0 < s.descriptor) (hcs : th.rseqCs = s.descriptor) (h₁ : s.locate s.start ≤ th.pc)
    (h₂ : th.pc < s.locate s.postCommit) : (s.interrupt cpu th).pc = s.locate s.abort :=
  if_pos ⟨by omega, hcs, h₁, h₂⟩

/-- Outside it, or where the word does not hold the descriptor, it goes on where it is. -/
theorem interrupt_outside {s : Sequence ρ κ} {th : ThreadState ρ} (cpu : Nat)
    (h : th.rseqCs ≠ s.descriptor ∨ s.locate s.postCommit ≤ th.pc) :
    (s.interrupt cpu th).pc = th.pc := by
  refine if_neg fun hin => ?_
  rcases h with h | h
  · exact h hin.2.1
  · exact absurd hin.2.2.2 (not_lt.mpr h)

variable [DecidableEq ρ]

/-- One instruction.  The flags that `imul` leaves undefined stay what they were. -/
def exec (s : Sequence ρ κ) (tables : κ → Nat → Nat) (m : Memory) (th : ThreadState ρ) :
    Instr ρ κ → ThreadState ρ × Memory
  | .leaDescriptor dst => (th.set dst s.descriptor, m)
  | .lea disp src dst => (th.set dst (((th.regs src : Int) + disp) % 2 ^ 32).toNat, m)
  | .mov w src dst => (th.set dst (w.trunc (th.source src)), m)
  | .load w src dst => (th.set dst (m.load (th.address src) w.bytes), m)
  | .store w src dst => (th.next, m.store (th.address dst) w.bytes (th.regs src))
  | .loadTable table index dst => (th.set dst (tables table (th.regs index)), m)
  | .loadField _ dst => (th.set dst th.cpu, m)
  | .setRseqCs src => ({ th.next with rseqCs := th.regs src }, m)
  | .imul n src dst =>
      ({ th.set dst (Width.quad.trunc (th.regs src * n)) with
        flags := { th.flags with
          carry := Width.quad.signed (th.regs src * n) ≠ Width.quad.signed (th.regs src) * n } }, m)
  | .add w src dst =>
      ({ th.set dst (w.trunc (th.regs dst + th.regs src)) with
        flags := .add w (th.regs dst) (th.regs src) }, m)
  | .xor w src dst =>
      ({ th.set dst (w.trunc (th.regs dst ^^^ th.regs src)) with
        flags := .logic w (th.regs dst ^^^ th.regs src) }, m)
  | .inc w dst =>
      ({ th.set dst (w.trunc (th.regs dst + 1)) with
        flags := { Flags.add w (th.regs dst) 1 with carry := th.flags.carry } }, m)
  | .cmp w src dst => ({ th.next with flags := .sub w (th.regs src) (th.regs dst) }, m)
  | .test w src dst => ({ th.next with flags := .logic w (th.regs dst &&& th.regs src) }, m)
  | .jcc c label => (if c.holds th.flags then { th with pc := s.locate label } else th.next, m)
  | .jmp label => ({ th with pc := s.locate label }, m)

/-- The next instruction, if the thread is not at the end. -/
def step (s : Sequence ρ κ) (tables : κ → Nat → Nat) (m : Memory) (th : ThreadState ρ) :
    Option (ThreadState ρ × Memory) :=
  s.code[th.pc]?.map (s.exec tables m th)

variable {s : Sequence ρ κ} {tables : κ → Nat → Nat} {m m' : Memory} {th th' : ThreadState ρ}

/-- What a step does is what the instruction at the thread's place does. -/
theorem exec_of_step {n : Nat} (hpc : th.pc = n) (h : s.step tables m th = some (th', m'))
    (i : Instr ρ κ) (hi : s.code[n]? = some i) : (th', m') = s.exec tables m th i := by
  rw [step, hpc, hi] at h
  exact (Option.some.inj h).symm

/-- No instruction moves the thread to another CPU. -/
theorem cpu_of_step (h : s.step tables m th = some (th', m')) : th'.cpu = th.cpu := by
  obtain ⟨i, -, h⟩ := Option.map_eq_some_iff.mp h
  cases i with
  | jcc c label =>
      obtain ⟨rfl, -⟩ := Prod.mk.inj h
      split <;> rfl
  | _ =>
      obtain ⟨rfl, -⟩ := Prod.mk.inj h
      rfl

/-- Where control may be behind the instruction at `n`. -/
def successors (s : Sequence ρ κ) (n : Nat) : List Nat :=
  match s.code[n]? with
  | some (.jcc _ label) => [s.locate label, n + 1]
  | some (.jmp label) => [s.locate label]
  | some _ => [n + 1]
  | none => []

theorem pc_of_step (h : s.step tables m th = some (th', m')) : th'.pc ∈ s.successors th.pc := by
  obtain ⟨i, hi, h⟩ := Option.map_eq_some_iff.mp h
  rw [successors, hi]
  cases i with
  | jcc c label =>
      obtain ⟨rfl, -⟩ := Prod.mk.inj h
      by_cases hc : c.holds th.flags <;> simp [hc]
  | _ =>
      obtain ⟨rfl, -⟩ := Prod.mk.inj h
      simp

/-- A thread that takes a step is before the end. -/
theorem pc_lt_of_step (h : s.step tables m th = some (th', m')) : th.pc < s.code.length := by
  obtain ⟨i, hi, -⟩ := Option.map_eq_some_iff.mp h
  exact (List.getElem?_eq_some_iff.mp hi).1

/-- A thread at the end takes no step. -/
theorem no_step {n : Nat} (hpc : th.pc = n) (hi : s.code[n]? = none) :
    s.step tables m th ≠ some (th', m') := by
  simp [step, hpc, hi]

end Sequence

end TieredAllocator.Lib
