import TieredAllocator.Lib.Processors
import TieredAllocator.Rseq.Runs

/-!
# Restartable sequences — any number of threads

Threads that call `rseq_slab_pop` and `rseq_slab_push` on the same slabs, each instruction by
instruction, on any number of CPUs, taken off and put on them by the kernel.  Together they refine
pushes and pops that are one operation each, at one moment between call and return
(`slab_calls_refine`); an operation is done again exactly where its thread is taken off between the
commit and the store that clears `rseq_cs`.  No thread waits for another (`slab_calls_progress`).
-/

namespace TieredAllocator.Rseq
open Lib Slabs

/-- A call on a class of the table, with a pointer of 64 bits. -/
structure Request where
  call : Call
  valid : ∀ cpu, (call.op cpu).Valid

/-- The slabs lie in the address space. -/
structure Region (base count : Nat) : Prop where
  count_lt : count < 2 ^ 32
  region : base + count * slabStrideBytes ≤ 2 ^ 64

/-- What is pushed. -/
def Call.pushed : Call → Option Nat
  | .pop _ => none
  | .push _ ptr => some ptr

theorem Request.setting {base count : Nat} (c : Request) (h : Region base count) :
    Setting base count c.call.sc := by
  obtain ⟨call, valid⟩ := c
  refine ⟨h.count_lt, h.region, ?_, ?_⟩
  · cases call with
    | pop sc => exact (valid 0).1
    | push sc ptr => exact (valid 0).1
  · cases call with
    | pop sc => exact (valid 0).2
    | push sc ptr => exact (valid 0).2.1

/-- The threads that push and pop in the slabs at `base`; `descriptor` is where the descriptor of
the sequence that a call runs lies. -/
def workload (base count : Nat) (descriptor : Call → Nat) :
    Workload Request (ThreadState Reg) Memory SlabOp SlabAnswer (Nat → Nat → List Nat) where
  toService := service base count
  step c := (c.call.sequence (descriptor c.call)).step tables
  interrupt c := (c.call.sequence (descriptor c.call)).interrupt
  cpu := ThreadState.cpu
  site := SlabOp.cpu
  IsCpu cpu := cpu < 2 ^ 32
  Begins c th := th.pc = 0 ∧ c.call.Inputs base count th.regs
  Ended c th := c.call.Finished (descriptor c.call) th
  answer c th := c.call.answer th.regs
  own c cpu := c.call.op cpu

instance (base count : Nat) (call : Call) (regs : Reg → Nat) :
    Decidable (call.Inputs base count regs) :=
  decidable_of_iff (regs .base = base ∧ regs .curOff = call.sc * 2 ∧ regs .slabCount = count ∧
      regs .scIdx = call.sc ∧ call.pushed.all fun p => regs .ptr = p) <| by
    constructor
    · rintro ⟨h₁, h₂, h₃, h₄, h₅⟩
      refine ⟨h₁, h₂, h₃, h₄, fun sc p hc => ?_⟩
      rw [hc] at h₅
      exact of_decide_eq_true h₅
    · intro h
      refine ⟨h.base, h.curOff, h.slabCount, h.scIdx, ?_⟩
      cases call with
      | pop sc => rfl
      | push sc p => exact decide_eq_true (h.ptr sc p rfl)

section Decidable
variable (base count : Nat) (descriptor : Call → Nat)

instance (c : Request) (th : ThreadState Reg) :
    Decidable ((workload base count descriptor).Begins c th) :=
  inferInstanceAs (Decidable (th.pc = 0 ∧ c.call.Inputs base count th.regs))

instance (c : Request) (th : ThreadState Reg) :
    Decidable ((workload base count descriptor).Ended c th) :=
  inferInstanceAs (Decidable (th.pc = (c.call.sequence (descriptor c.call)).code.length))

instance : DecidablePred (workload base count descriptor).IsCpu :=
  fun cpu => inferInstanceAs (Decidable (cpu < 2 ^ 32))

end Decidable

variable {base count sc ptr descriptor : Nat} {call : Call} {th th' : ThreadState Reg}
  {m m' : Memory} {f : Nat → Nat → List Nat}

/-! ### What an instruction stores -/

/-- Before it has popped, a thread stores into its own stack only. -/
theorem pop_exec_wrote (hs : Setting base count sc) (hr : Represents base count m f)
    (h : popEarly base count descriptor sc th m)
    (hstep : (rseqSlabPop descriptor).step tables m th = some (th', m')) :
    Memory.Wrote (Cell base th.cpu sc) m m' := by
  obtain ⟨hcpu, hin, he⟩ := h
  rcases or_assoc.mpr (popReading_pc he) with hn | hn
  · obtain ⟨rfl, -⟩ := pop_reading_step hs rfl hn hcpu hin hr he hstep
    exact Memory.Wrote.refl _ _
  · rw [hn] at he
    obtain ⟨-, rfl⟩ : th' = th.next ∧ m' = m.store (th.address currentOf) 2 (th.regs .rdx) :=
      Prod.mk.inj (Sequence.exec_of_step hn hstep _ rfl)
    exact Memory.Wrote.store m _ (.inl ⟨he.1.currentOf_eq hin hs, rfl⟩)

theorem push_exec_wrote (hs : Setting base count sc) (hr : Represents base count m f)
    (h : pushEarly base count descriptor sc ptr th m)
    (hstep : (rseqSlabPush descriptor).step tables m th = some (th', m')) :
    Memory.Wrote (Cell base th.cpu sc) m m' := by
  obtain ⟨hcpu, hin, he⟩ := h
  rcases pushReading_pc he with hn | hn | hn
  · obtain ⟨rfl, -⟩ := push_reading_step hs rfl hn hcpu hin hr he hstep
    exact Memory.Wrote.refl _ _
  · rw [hn] at he
    obtain ⟨hat, -, hroom, hr10⟩ := he
    obtain ⟨-, rfl⟩ : th' = th.next ∧
        m' = m.store (th.address (slotOf .r10)) 8 (th.regs .ptr) :=
      Prod.mk.inj (Sequence.exec_of_step hn hstep _ rfl)
    have hend := slabOffset_le (show sc < numSizeClasses from hs.sc_lt)
    rw [hat.slotOf_eq hs (by omega)]
    exact Memory.Wrote.store m _ (.inr (by omega))
  · rw [hn] at he
    obtain ⟨-, rfl⟩ : th' = th.next ∧ m' = m.store (th.address currentOf) 2 (th.regs .rax) :=
      Prod.mk.inj (Sequence.exec_of_step hn hstep _ rfl)
    exact Memory.Wrote.store m _ (.inl ⟨he.1.currentOf_eq hin hs, rfl⟩)

/-! ### The protocol -/

/-- What is known of a call. -/
def outline (hs : Setting base count call.sc) (hvalid : ∀ cpu, (call.op cpu).Valid)
    (hd : 0 < descriptor) :
    Outline (scene base count descriptor call) fun cpu => call.op cpu :=
  match call with
  | .pop _ => popOutline hs hd
  | .push _ _ => pushOutline hs (hvalid 0).2.2 hd

theorem outline_early_wrote {cpu' sc' : Nat} (hs : Setting base count call.sc)
    (hvalid : ∀ cpu, (call.op cpu).Valid) (hd : 0 < descriptor)
    (h : (outline hs hvalid hd).early th m) (hw : Memory.Wrote (Cell base cpu' sc') m m')
    (hsc' : sc' < numSizeClasses) (hne : cpu' ≠ th.cpu) :
    (outline hs hvalid hd).early th m' := by
  cases call with
  | pop sc =>
      obtain ⟨hcpu, hin, he⟩ := h
      exact ⟨hcpu, hin, (view_wrote hw hs.sc_lt hsc' hne).symm ▸ he⟩
  | push sc ptr =>
      obtain ⟨hcpu, hin, he⟩ := h
      exact ⟨hcpu, hin, (view_wrote hw hs.sc_lt hsc' hne).symm ▸ he⟩

theorem outline_exec_wrote (hs : Setting base count call.sc)
    (hvalid : ∀ cpu, (call.op cpu).Valid) (hd : 0 < descriptor) (hr : Represents base count m f)
    (h : (outline hs hvalid hd).early th m)
    (hstep : (call.sequence descriptor).step tables m th = some (th', m')) :
    Memory.Wrote (Cell base th.cpu call.sc) m m' := by
  cases call with
  | pop sc => exact pop_exec_wrote hs hr h hstep
  | push sc ptr => exact push_exec_wrote hs hr h hstep

/-- A thread that has done its operation stores nothing. -/
theorem outline_late_mem (hs : Setting base count call.sc)
    (hvalid : ∀ cpu, (call.op cpu).Valid) (hd : 0 < descriptor) {cpu : Nat} {a : SlabAnswer}
    (h : (outline hs hvalid hd).late th cpu a)
    (hstep : (call.sequence descriptor).step tables m th = some (th', m')) : m' = m := by
  cases call with
  | pop sc =>
      obtain ⟨p, hp, -, hin, hdone⟩ := h
      exact (pop_done_step rfl hp hin hdone hstep).1
  | push sc ptr =>
      obtain ⟨ok, -, hin, hdone⟩ := h
      exact (push_done_step rfl hin hdone hstep).1

theorem outline_begins (hs : Setting base count call.sc) (hvalid : ∀ cpu, (call.op cpu).Valid)
    (hd : 0 < descriptor) (hpc : th.pc = 0) (hin : call.Inputs base count th.regs)
    (hcpu : th.cpu < 2 ^ 32) (m : Memory) : (outline hs hvalid hd).early th m := by
  cases call with
  | pop sc => exact ⟨hcpu, hin, hpc ▸ trivial⟩
  | push sc ptr => exact ⟨hcpu, hin, hpc ▸ trivial⟩

/-- Before its operation a thread is before the end of the code. -/
theorem outline_early_lt (hs : Setting base count call.sc) (hvalid : ∀ cpu, (call.op cpu).Valid)
    (hd : 0 < descriptor) (h : (outline hs hvalid hd).early th m) :
    th.pc < (call.sequence descriptor).code.length := by
  cases call with
  | pop sc =>
      have := popReading_pc h.2.2
      exact (show th.pc < 34 by omega)
  | push sc ptr =>
      have := pushReading_pc h.2.2
      exact (show th.pc < 35 by omega)

theorem outline_late_le (hs : Setting base count call.sc) (hvalid : ∀ cpu, (call.op cpu).Valid)
    (hd : 0 < descriptor) {cpu : Nat} {a : SlabAnswer} (h : (outline hs hvalid hd).late th cpu a) :
    th.pc ≤ (call.sequence descriptor).code.length := by
  cases call with
  | pop sc =>
      obtain ⟨p, -, -, -, hdone⟩ := h
      have := popDone_pc hdone
      exact (show th.pc ≤ 34 by omega)
  | push sc ptr =>
      obtain ⟨ok, -, -, hdone⟩ := h
      have := pushDone_pc hdone
      exact (show th.pc ≤ 35 by omega)

theorem outline_late_ended (hs : Setting base count call.sc)
    (hvalid : ∀ cpu, (call.op cpu).Valid) (hd : 0 < descriptor) {cpu : Nat} {a : SlabAnswer}
    (h : (outline hs hvalid hd).late th cpu a) (hend : call.Finished descriptor th) :
    a = call.answer th.regs := by
  cases call with
  | pop sc =>
      obtain ⟨p, -, rfl, -, hdone⟩ := h
      rw [show th.pc = 34 from hend] at hdone
      exact congrArg SlabAnswer.popped hdone.1.symm
  | push sc ptr =>
      obtain ⟨ok, rfl, -, hdone⟩ := h
      rw [show th.pc = 35 from hend] at hdone
      exact congrArg SlabAnswer.pushed hdone.1.symm

/-- What is known of the threads. -/
def protocol (hregion : Region base count) (descriptor : Call → Nat)
    (hd : ∀ c, 0 < descriptor c) : Protocol (workload base count descriptor) where
  outline c := outline (c.setting hregion) c.valid (hd c.call)
  begins {c _} h hcpu m := outline_begins (c.setting hregion) c.valid (hd c.call) h.1 h.2 hcpu m
  cpu_step h := Sequence.cpu_of_step h
  cpu_interrupt _ _ _ := rfl
  early_apart {c d _ _ _ _ _ _} h h₁ hr hne hstep :=
    outline_early_wrote (c.setting hregion) c.valid (hd c.call) h
      (outline_exec_wrote (d.setting hregion) d.valid (hd d.call) hr h₁ hstep)
      (d.setting hregion).sc_lt hne
  late_mem {c _ _ _ _ _ _} h hstep :=
    outline_late_mem (c.setting hregion) c.valid (hd c.call) h hstep
  early_ended {c _ _} h := (outline_early_lt (c.setting hregion) c.valid (hd c.call) h).ne
  late_ended {c _ _ _} h hend :=
    outline_late_ended (c.setting hregion) c.valid (hd c.call) h hend

theorem protocol_window (hregion : Region base count) (descriptor : Call → Nat)
    (hd : ∀ c, 0 < descriptor c) :
    (protocol hregion descriptor hd).window = fun c th => c.call.window th := by
  funext ⟨call, valid⟩ th
  cases call <;> rfl

/-! ### Progress -/

/-- The code leads on, and not to the abort handler, but for the jump at `loop` and for the abort
handler, which leads to the beginning. -/
structure Onward (s : Sequence Reg Table) (loop : Nat) : Prop where
  forward : ∀ n < s.code.length, n ≠ loop → n ≠ s.locate s.abort →
    ∀ k ∈ s.successors n, n < k ∧ k ≠ s.locate s.abort
  jump : ∃ label, s.code[loop]? = some (.jcc .ne label)
  behind : loop + 1 < s.locate s.abort
  restart : s.successors (s.locate s.abort) = [0]

/-- The instructions from `pc` to the end of the code, where the abort handler leads to its
beginning. -/
def rank (s : Sequence Reg Table) (pc : Nat) : Nat :=
  if pc = s.locate s.abort then s.code.length + 1 else s.code.length - pc

section Rank
variable {s : Sequence Reg Table} {loop pc : Nat}

theorem rank_abort : rank s (s.locate s.abort) = s.code.length + 1 := if_pos rfl

theorem rank_of_ne (h : pc ≠ s.locate s.abort) : rank s pc = s.code.length - pc := if_neg h

theorem rank_le (s : Sequence Reg Table) (pc : Nat) : rank s pc ≤ s.code.length + 1 := by
  by_cases h : pc = s.locate s.abort
  · rw [h, rank_abort]
  · rw [rank_of_ne h]
    omega

/-- A thread that does not take the jump at `loop` comes nearer to the end. -/
theorem Onward.rank_lt (h : Onward s loop) (hzero : th.pc = loop → th.flags.zero = true)
    (hstep : s.step tables m th = some (th', m')) : rank s th'.pc < rank s th.pc := by
  have hlt := Sequence.pc_lt_of_step hstep
  have hnext := Sequence.pc_of_step hstep
  have hbehind := h.behind
  by_cases habort : th.pc = s.locate s.abort
  · rw [habort, h.restart, List.mem_singleton] at hnext
    rw [habort, rank_abort, rank_of_ne (by omega)]
    omega
  by_cases hloop : th.pc = loop
  · obtain ⟨label, hi⟩ := h.jump
    have hexec : (th', m') =
        (if !th.flags.zero then { th with pc := s.locate label } else th.next, m) :=
      Sequence.exec_of_step hloop hstep _ hi
    rw [hzero hloop] at hexec
    obtain ⟨rfl, -⟩ : th' = th.next ∧ m' = m := Prod.mk.inj hexec
    rw [ThreadState.next_pc, rank_of_ne habort, rank_of_ne (by omega)]
    omega
  · obtain ⟨hon, hne⟩ := h.forward th.pc hlt hloop habort _ hnext
    rw [rank_of_ne habort, rank_of_ne hne]
    omega

end Rank

/-- Where the call begins again if the two fields of `struct rseq` name different CPUs. -/
def Call.loop : Call → Nat
  | .pop _ => 10
  | .push _ _ => 11

theorem Call.onward (call : Call) : Onward (call.sequence descriptor) call.loop := by
  cases call with
  | pop sc =>
      refine ⟨?_, ⟨12, rfl⟩, show 11 < 33 by decide, rfl⟩
      show ∀ n < 34, n ≠ 10 → n ≠ 33 → ∀ k ∈ (rseqSlabPop 0).successors n, n < k ∧ k ≠ 33
      decide
  | push sc ptr =>
      refine ⟨?_, ⟨22, rfl⟩, show 12 < 34 by decide, rfl⟩
      show ∀ n < 35, n ≠ 11 → n ≠ 34 → ∀ k ∈ (rseqSlabPush 0).successors n, n < k ∧ k ≠ 34
      decide

theorem Call.length_le (call : Call) : (call.sequence descriptor).code.length ≤ 35 := by
  cases call with
  | pop sc => exact (show 34 ≤ 35 by decide)
  | push sc ptr => exact Nat.le_refl 35

/-- The jump at `loop` is taken by no thread: both fields of `struct rseq` name its CPU. -/
theorem outline_early_loop (hs : Setting base count call.sc)
    (hvalid : ∀ cpu, (call.op cpu).Valid) (hd : 0 < descriptor)
    (h : (outline hs hvalid hd).early th m) (hloop : th.pc = call.loop) :
    th.flags.zero = true := by
  cases call with
  | pop sc =>
      have he := h.2.2
      rw [show th.pc = 10 from hloop] at he
      exact he.2.2
  | push sc ptr =>
      have he := h.2.2
      rw [show th.pc = 11 from hloop] at he
      exact he.2.2.2

theorem outline_late_loop (hs : Setting base count call.sc)
    (hvalid : ∀ cpu, (call.op cpu).Valid) (hd : 0 < descriptor) {cpu : Nat} {a : SlabAnswer}
    (h : (outline hs hvalid hd).late th cpu a) : th.pc ≠ call.loop := by
  intro hloop
  cases call with
  | pop sc =>
      obtain ⟨p, -, -, -, hdone⟩ := h
      rwa [show th.pc = 10 from hloop] at hdone
  | push sc ptr =>
      obtain ⟨ok, -, -, hdone⟩ := h
      rwa [show th.pc = 11 from hloop] at hdone

/-- A thread that is not at the end has a next instruction. -/
theorem outline_defined (hs : Setting base count call.sc) (hvalid : ∀ cpu, (call.op cpu).Valid)
    (hd : 0 < descriptor)
    (h : (outline hs hvalid hd).early th m ∨ ∃ cpu a, (outline hs hvalid hd).late th cpu a)
    (hend : ¬ call.Finished descriptor th) :
    ∃ r, (call.sequence descriptor).step tables m th = some r := by
  have hlt : th.pc < (call.sequence descriptor).code.length := by
    rcases h with h | ⟨cpu, a, h⟩
    · exact outline_early_lt hs hvalid hd h
    · exact Nat.lt_of_le_of_ne (outline_late_le hs hvalid hd h) hend
  exact ⟨_, by rw [Sequence.step, List.getElem?_eq_getElem hlt, Option.map_some]⟩

def ranking (hregion : Region base count) (descriptor : Call → Nat)
    (hd : ∀ c, 0 < descriptor c) : (protocol hregion descriptor hd).Ranking where
  bound := 36
  rank c th := rank (c.call.sequence (descriptor c.call)) th.pc
  rank_le c _ := (rank_le _ _).trans (Nat.succ_le_succ c.call.length_le)
  rank_early {c _ _ _ _ _} h _ hstep :=
    c.call.onward.rank_lt (outline_early_loop (c.setting hregion) c.valid (hd c.call) h) hstep
  rank_late {c _ _ _ _ _ _} h hstep :=
    c.call.onward.rank_lt (fun hloop =>
      absurd hloop (outline_late_loop (c.setting hregion) c.valid (hd c.call) h)) hstep
  defined {c _ _} h hend := outline_defined (c.setting hregion) c.valid (hd c.call) h hend

/-! ### Runs -/

theorem valid_pop_one (cpu : Nat) : ((Call.pop 1).op cpu).Valid := ⟨by decide, by decide⟩

theorem valid_push_one (cpu : Nat) : ((Call.push 1 64).op cpu).Valid :=
  ⟨by decide, by decide, by decide⟩

/-- A push of 64 is taken off CPU 0 before the commit, and goes on on CPU 1; meanwhile a pop is
begun on CPU 0, and taken off there. -/
def sampleEvents : List (Workload.Event Bool Request (ThreadState Reg) SlabAnswer) :=
  let push : Request := ⟨.push 1 64, valid_push_one⟩
  let pop : Request := ⟨.pop 1, valid_pop_one⟩
  [.start false push (sampleThread 2)] ++ List.replicate 17 (.exec false) ++
    [.preempt false, .start true pop (sampleThread 2)] ++ List.replicate 9 (.exec true) ++
    [.resume false 1] ++ List.replicate 25 (.exec false) ++
    [.finish false (.pushed true), .preempt true, .resume true 1] ++
    List.replicate 24 (.exec true) ++ [.finish true (.popped 64)]

theorem sample_replay :
    (((workload 4096 2 fun _ => 1).system Bool).replay (Workload.rest .zero) sampleEvents).map
      (fun w => (stack w.mem 4096 0 1, stack w.mem 4096 1 1)) = some ([], []) := by
  decide +kernel

section Runs
variable {ι : Type} [DecidableEq ι] {descriptor : Call → Nat}
  {w : Tasks ι Request (ThreadState Reg) Memory}
  {es : List (Workload.Event ι Request (ThreadState Reg) SlabAnswer)}

/-- **The slab operations refine atomic ones.**  Any number of threads push and pop instruction by
instruction, on any CPUs, taken off and put on them at any instruction.  Each run is one in which
every call is one push or pop on the lists, on a CPU and at a moment between its call and its
return, and returns the answer of it; where a thread is taken off between the commit and the store
that clears `rseq_cs`, its operation stays done and is done again.  The slabs hold the lists. -/
theorem slab_calls_refine (hregion : Region base count) (hd : ∀ c, 0 < descriptor c)
    (hr : Represents base count m f)
    (r : ((workload base count descriptor).system ι).Run (Workload.rest m) es w) :
    ∃ as u, ((workload base count descriptor).atomic ι).Run (Atomic.rest f) as u ∧
      ((workload base count descriptor).atomic ι).trace Atomic.shown (Atomic.rest f) as =
        ((workload base count descriptor).system ι).trace
          (Workload.shown fun c th => c.call.window th) (Workload.rest m) es ∧
      Represents base count w.mem u.state := by
  obtain ⟨as, u, hrun, htrace, hlinked⟩ := (protocol hregion descriptor hd).refines r hr
  rw [protocol_window] at htrace
  exact ⟨as, u, hrun, htrace, hlinked.rep⟩

/-- The pop returns what was pushed on the other CPU. -/
theorem slab_calls_refine_sample :
    ∃ as u, ((workload 4096 2 fun _ => 1).atomic Bool).Run (Atomic.rest fun _ _ => []) as u ∧
      ((workload 4096 2 fun _ => 1).atomic Bool).trace Atomic.shown
          (Atomic.rest fun _ _ => []) as =
        ((workload 4096 2 fun _ => 1).system Bool).trace
          (Workload.shown fun c th => c.call.window th) (Workload.rest .zero) sampleEvents ∧
      u.state 1 1 = [] := by
  obtain ⟨w, hw, hstacks⟩ := Option.map_eq_some_iff.mp sample_replay
  obtain ⟨as, u, hrun, htrace, hrep⟩ := slab_calls_refine ⟨by decide, by decide +kernel⟩
    (fun _ => by decide) (represents_zero fun _ _ _ => rfl) (System.Run.of_replay hw)
  exact ⟨as, u, hrun, htrace, (hrep 1 (by decide) 1 (by decide)).2.symm.trans
    (Prod.mk.inj hstacks).2⟩

/-- **No thread waits for another.**  Whatever the others do, a thread in a call that has a CPU can
take its next instruction or is at the end, and it has executed 36 instructions at most for each
call it began and each time it was put on a CPU again. -/
theorem slab_calls_progress (hregion : Region base count) (hd : ∀ c, 0 < descriptor c)
    (hr : Represents base count m f)
    (r : ((workload base count descriptor).system ι).Run (Workload.rest m) es w) (i : ι) :
    es.countP (Protocol.Ranking.isExec i) ≤ 36 * es.countP (Protocol.Ranking.isPutOn i) ∧
      ∀ c th, w.task i = .running c th → c.call.Finished (descriptor c.call) th ∨
        ∃ w', ((workload base count descriptor).system ι).step w (.exec i) = some w' :=
  (ranking hregion descriptor hd).progress r hr i

theorem slab_calls_progress_sample : ∃ w : Tasks Bool Request (ThreadState Reg) Memory,
    stack w.mem 4096 1 1 = [] ∧
      sampleEvents.countP (Protocol.Ranking.isExec false) ≤
        36 * sampleEvents.countP (Protocol.Ranking.isPutOn false) ∧
      ∀ c th, w.task false = .running c th → c.call.Finished 1 th ∨
        ∃ w', ((workload 4096 2 fun _ => 1).system Bool).step w (.exec false) = some w' := by
  obtain ⟨w, hw, hstacks⟩ := Option.map_eq_some_iff.mp sample_replay
  exact ⟨w, (Prod.mk.inj hstacks).2, slab_calls_progress ⟨by decide, by decide +kernel⟩
    (fun _ => by decide) (represents_zero fun _ _ _ => rfl) (System.Run.of_replay hw) false⟩

end Runs

end TieredAllocator.Rseq
