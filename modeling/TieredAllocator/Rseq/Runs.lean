import TieredAllocator.Rseq.Pop
import TieredAllocator.Rseq.Push

/-!
# Restartable sequences — runs

A call has taken effect once if its answer is that of one operation on one CPU, at one point
between the operations of the others (`Call.Once`).  So it is if no interruption comes between the
commit and the store that clears `rseq_cs` (`exactly_once`): the post-commit label stands behind
that store, and an interruption before it sends a thread that has committed back to the start.
-/

namespace TieredAllocator.Rseq
open Lib Slabs

variable {base count descriptor : Nat} {call : Call} {th : ThreadState Reg} {m : Memory}
  {f : Nat → Nat → List Nat} {w : Scene.World (ThreadState Reg) Memory SlabOp SlabAnswer}
  {es : List (Scene.Event SlabOp)}

instance : ∀ e, Decidable ((scene base count descriptor call).system.allowed w e)
  | .exec => isTrue trivial
  | .interrupt cpu ops => inferInstanceAs (Decidable (cpu < 2 ^ 32 ∧ ∀ o ∈ ops, o.Valid))
  | .parallel o => inferInstanceAs (Decidable (o.Valid ∧ o.cpu ≠ w.thread.cpu))

namespace Call

/-- The thread has written the count, and has not cleared `rseq_cs` yet. -/
def window (th : ThreadState Reg) : Call → Bool
  | .pop _ => popWindow th
  | .push _ _ => pushWindow th

/-- An interruption in the window. -/
def late (call : Call) (w : Scene.World (ThreadState Reg) Memory SlabOp SlabAnswer) :
    Scene.Event SlabOp → Bool
  | .interrupt _ _ => call.window w.thread
  | _ => false

/-- The thread is at the end of the code. -/
def Finished (descriptor : Nat) (call : Call) (th : ThreadState Reg) : Prop :=
  th.pc = (call.sequence descriptor).code.length

/-- The call was one operation on one CPU, at one point between those of the others, and used the
fast path if that CPU has a slab. -/
def Once (base count : Nat) (f : Nat → Nat → List Nat) (call : Call)
    (w : Scene.World (ThreadState Reg) Memory SlabOp SlabAnswer) : Prop :=
  ∃ cpu before after f', w.log = before ++ after ∧
    answers (SlabOp.onLists count) f
        (before.map Prod.fst ++ call.op cpu :: after.map Prod.fst) =
      (before.map Prod.snd ++ call.answer w.thread.regs :: after.map Prod.snd, f') ∧
    Represents base count w.mem f' ∧ (w.thread.regs .usedFastpath ≠ 0 ↔ cpu < count)

end Call

/-- An outline of the call, from its first instruction to its results. -/
theorem outline_exists (hs : Setting base count call.sc) (hvalid : ∀ cpu, (call.op cpu).Valid)
    (hd : 0 < descriptor) :
    ∃ O : Outline (scene base count descriptor call) fun cpu => call.op cpu,
      (∀ th m, th.pc = 0 → th.cpu < 2 ^ 32 → call.Inputs base count th.regs → O.early th m) ∧
      (∀ th m, call.Finished descriptor th → ¬ O.early th m) ∧
      (∀ th c a, call.Finished descriptor th → O.late th c a →
        a = call.answer th.regs ∧ (th.regs .usedFastpath ≠ 0 ↔ c < count)) ∧
      O.lateStep = call.late := by
  cases call with
  | pop sc =>
      refine ⟨popOutline hs hd, fun th m hpc hcpu hin => ⟨hcpu, hin, hpc ▸ trivial⟩, ?_, ?_,
        funext fun w => funext fun e => by cases e <;> rfl⟩
      · rintro th m (hend : th.pc = 34) ⟨-, -, he⟩
        rw [hend] at he
        exact he
      · rintro th c a (hend : th.pc = 34) ⟨p, -, rfl, -, hdone⟩
        rw [hend] at hdone
        obtain ⟨rfl, hused⟩ := hdone
        exact ⟨rfl, hused⟩
  | push sc ptr =>
      refine ⟨pushOutline hs (hvalid 0).2.2 hd, fun th m hpc hcpu hin =>
        ⟨hcpu, hin, hpc ▸ trivial⟩, ?_, ?_, funext fun w => funext fun e => by cases e <;> rfl⟩
      · rintro th m (hend : th.pc = 35) ⟨-, -, he⟩
        rw [hend] at he
        exact he
      · rintro th c a (hend : th.pc = 35) ⟨ok, rfl, -, hdone⟩
        rw [hend] at hdone
        obtain ⟨rfl, hused⟩ := hdone
        exact ⟨rfl, hused⟩

/-- A call that is finished has taken effect once, and once more for each interruption in the
window. -/
theorem finished_effect (hs : Setting base count call.sc) (hvalid : ∀ cpu, (call.op cpu).Valid)
    (hd : 0 < descriptor) (hpc : th.pc = 0) (hcpu : th.cpu < 2 ^ 32)
    (hin : call.Inputs base count th.regs) (hr : Represents base count m f)
    (r : (scene base count descriptor call).system.Run ⟨th, m, []⟩ es w)
    (hend : call.Finished descriptor w.thread) :
    ∃ lost cpu f',
      lost.length = (scene base count descriptor call).system.tally call.late ⟨th, m, []⟩ es ∧
      (∀ d ∈ lost, ∃ c, d.1 = call.op c) ∧
      (service base count).Effect f (lost ++ [(call.op cpu, call.answer w.thread.regs)]) w.log f' ∧
      Represents base count w.mem f' ∧ (w.thread.regs .usedFastpath ≠ 0 ↔ cpu < count) := by
  obtain ⟨O, hstart, hnot, hresult, hlate⟩ := outline_exists hs hvalid hd
  obtain ⟨lost, f', hlen, hown, hrep, hphase⟩ := O.run r (O.inv_init (hstart th m hpc hcpu hin) hr)
  rw [hlate, Nat.zero_add] at hlen
  rcases hphase with ⟨-, hearly⟩ | ⟨c, a, heff, hdone⟩
  · exact absurd hearly (hnot _ _ hend)
  · obtain ⟨rfl, hused⟩ := hresult _ _ _ hend hdone
    exact ⟨lost, c, f', hlen, hown, heff, hrep, hused⟩

/-- **The restartable sequences.**  From each state of the slabs, whatever interruptions come and
whatever the others push and pop in them and on the other CPUs: if no interruption comes between the
commit and the store that clears `rseq_cs`, then a call that is finished has taken effect once. -/
theorem exactly_once (hs : Setting base count call.sc) (hvalid : ∀ cpu, (call.op cpu).Valid)
    (hd : 0 < descriptor) (hpc : th.pc = 0) (hcpu : th.cpu < 2 ^ 32)
    (hin : call.Inputs base count th.regs) (hr : Represents base count m f)
    (r : (scene base count descriptor call).system.Run ⟨th, m, []⟩ es w)
    (hon : (scene base count descriptor call).system.EachStep
      (fun w e => call.late w e = false) ⟨th, m, []⟩ es)
    (hend : call.Finished descriptor w.thread) : call.Once base count f w := by
  obtain ⟨lost, cpu, f', hlen, -, heff, hrep, hused⟩ :=
    finished_effect hs hvalid hd hpc hcpu hin hr r hend
  rw [hon.tally_eq_zero r] at hlen
  obtain rfl := List.eq_nil_of_length_eq_zero hlen
  obtain ⟨before, after, hlog, hans⟩ := heff.once
  exact ⟨cpu, before, after, f', hlog, hans, hrep, hused⟩

/-- At the start of a push of 64 onto class 1, on CPU 0. -/
def sampleThread (count : Nat) : ThreadState Reg where
  regs
    | .base => 4096
    | .curOff => 2
    | .slabCount => count
    | .scIdx => 1
    | .ptr => 64
    | _ => 0
  flags := ⟨false, false, false⟩
  pc := 0
  rseqCs := 0
  cpu := 0

theorem sampleThread_inputs (count : Nat) :
    (Call.push 1 64).Inputs 4096 count (sampleThread count).regs :=
  ⟨rfl, rfl, rfl, rfl, fun _ _ h => by cases h; rfl⟩

/-- Interrupted right behind the commit, it pushes its pointer twice. -/
theorem exactly_once_fails : ∃ es w,
    (scene 4096 1 1 (.push 1 64)).system.Run ⟨sampleThread 1, .zero, []⟩ es w ∧
      (Call.push 1 64).Inputs 4096 1 (sampleThread 1).regs ∧
      Represents 4096 1 .zero (fun _ _ => []) ∧ Call.Finished 1 (.push 1 64) w.thread ∧
      w.thread.regs .ok = 1 ∧ stack w.mem 4096 0 1 = [64, 64] ∧
      ¬ Call.Once 4096 1 (fun _ _ => []) (.push 1 64) w := by
  have h : ((scene 4096 1 1 (.push 1 64)).system.replay ⟨sampleThread 1, .zero, []⟩
      (List.replicate 19 .exec ++ .interrupt 0 [] :: List.replicate 25 .exec)).map
        (fun w => (w.thread.pc, w.thread.regs .ok, stack w.mem 4096 0 1, w.log.length)) =
      some (35, 1, [64, 64], 0) := by
    decide +kernel
  obtain ⟨w, hw, h⟩ := Option.map_eq_some_iff.mp h
  simp only [Prod.mk.injEq] at h
  obtain ⟨hpc, hok, hstack, hlog⟩ := h
  refine ⟨_, w, System.Run.of_replay hw, sampleThread_inputs 1, represents_zero fun _ _ _ => rfl,
    hpc, hok, hstack, ?_⟩
  rintro ⟨cpu, before, after, f', hsplit, hans, hrep, -⟩
  have hnil : before = [] ∧ after = [] := by
    rw [List.eq_nil_of_length_eq_zero hlog] at hsplit
    exact List.append_eq_nil_iff.mp hsplit.symm
  obtain ⟨rfl, rfl⟩ := hnil
  have hf : f' = (SlabOp.onLists 1 (fun _ _ => []) (.push cpu 1 64)).2 :=
    (congrArg Prod.snd hans).symm
  have hlen : (f' 0 1).length ≤ 1 := by
    rw [hf, SlabOp.onLists]
    split
    · exact Nat.zero_le _
    · rename_i hcpu
      obtain rfl : cpu = 0 := by
        have : ¬ 1 ≤ cpu := hcpu
        omega
      simp only [SlabOp.cpu, SlabOp.sc, pushBounded, Function.update_self]
      split <;> simp
  rw [← (hrep 0 (by decide) 1 (by decide)).2, hstack] at hlen
  exact absurd hlen (by decide)

/-- Interrupted before the commit and moved to CPU 1. -/
theorem exactly_once_sample : ∃ w,
    Call.Finished 1 (.push 1 64) w.thread ∧ w.thread.regs .ok = 1 ∧
      stack w.mem 4096 0 1 = [72] ∧ stack w.mem 4096 1 1 = [64] ∧
      Call.Once 4096 2 (fun _ _ => []) (.push 1 64) w := by
  let es : List (Scene.Event SlabOp) := List.replicate 18 .exec ++
    .interrupt 1 [.push 0 1 72, .push 0 1 80] :: List.replicate 12 .exec ++
    .parallel (.pop 0 1) :: List.replicate 13 .exec
  have h : ((scene 4096 2 1 (.push 1 64)).system.replay ⟨sampleThread 2, .zero, []⟩ es).map
        (fun w => (w.thread.pc, w.thread.regs .ok, stack w.mem 4096 0 1, stack w.mem 4096 1 1)) =
      some (35, 1, [72], [64]) := by
    decide +kernel
  obtain ⟨w, hw, h⟩ := Option.map_eq_some_iff.mp h
  simp only [Prod.mk.injEq] at h
  obtain ⟨hpc, hok, h₀, h₁⟩ := h
  exact ⟨w, hpc, hok, h₀, h₁, exactly_once ⟨by decide, by decide +kernel, by decide, by decide⟩
    (fun _ => ⟨by decide, by decide, by decide⟩) (by decide) rfl (by decide) (sampleThread_inputs 2)
    (represents_zero fun _ _ _ => rfl) (System.Run.of_replay hw) (by decide +kernel) hpc⟩

end TieredAllocator.Rseq
