import TieredAllocator.Lib.Bounds
import TieredAllocator.Allocator.Partition

/-!
# Allocator — progress

No call waits for another and no loop depends on the other threads: with batches of `MAX_BATCH_SIZE`
objects at most, a call does a bounded number of atomic actions (`Call.bound`), and each action that
is due is defined, with a batch that fits the arrays `batch[MAX_BATCH_SIZE]` on the stacks of
`allocate` and `deallocate` (`calls_end`).
-/

namespace TieredAllocator
open Lib

/-- The pointers that the action moves fit a batch. -/
def Action.Fits : Action → Prop
  | .removeRange _ n => n ≤ maxBatchSize
  | .insertRange _ batch => batch.length ≤ maxBatchSize
  | _ => True

/-- What `RemoveRange` is asked for is the most it gives. -/
def Action.Ok : (a : Action) → Answer a → Prop
  | .removeRange _ n, (batch : List Nat) => batch.length ≤ n
  | _, _ => True

def batches : Prog.Terms Action Answer := ⟨Action.Fits, Action.Ok⟩

theorem ok_of_ans (g : Held) (a : Action) (r : Answer a) (h : Ans g a r) : batches.ok a r := by
  cases a with
  | removeRange sc n => exact h.1
  | _ => trivial

namespace Program
open Prog

variable {sc count ptr : Nat} {batch : List Nat}

/-! ### Batches -/

theorem allocateBatch_within (sc count : Nat) :
    (allocateBatch sc count).Within batches (fun ps : List Nat => ps.length ≤ count) count := by
  induction count with
  | zero => exact Nat.le_refl 0
  | succ count ih =>
      refine within_perform_bind trivial fun p _ => ?_
      by_cases hp : p = (0 : Nat)
      · rw [if_pos hp]
        show ([] : List Nat).length ≤ count + 1
        exact Nat.zero_le _
      · rw [if_neg hp]
        exact ih.bind (m := 0) fun ps hps => Nat.succ_le_succ hps

theorem centralFree_within (sc ptr : Nat) :
    (centralFree sc ptr).Within batches (fun _ => True) 2 := by
  by_cases hp : ptr = 0
  · rw [centralFree, if_pos hp]
    exact within_done trivial _
  · rw [centralFree, if_neg hp]
    refine within_perform_bind trivial fun s _ => ?_
    cases s with
    | none => exact within_done trivial _
    | some s => exact within_perform trivial fun _ _ => trivial

theorem deallocateBatch_within (sc : Nat) (batch : List Nat) :
    (deallocateBatch sc batch).Within batches (fun _ => True) (2 * batch.length) := by
  induction batch with
  | nil => exact within_done trivial _
  | cons ptr batch ih =>
      rw [List.length_cons, Nat.mul_succ, Nat.add_comm]
      exact (centralFree_within sc ptr).bind fun _ _ => ih

theorem refillBatch_within (sc : Nat) (hcount : count ≤ maxBatchSize) :
    (refillBatch sc count).Within batches (fun ps : List Nat => ps.length ≤ count)
      (count + 1) := by
  refine within_perform_bind hcount fun (batch : List Nat) hbatch => ?_
  by_cases h0 : batch.length = 0
  · rw [if_pos h0]
    exact allocateBatch_within sc count
  · rw [if_neg h0]
    exact hbatch

theorem releaseBatch_within (sc : Nat) (hbatch : batch.length ≤ maxBatchSize) :
    (releaseBatch sc batch).Within batches (fun _ => True) (2 * batch.length + 1) := by
  refine within_perform_bind hbatch fun (inserted : Nat) _ => ?_
  by_cases hlt : inserted < batch.length
  · rw [if_pos hlt]
    exact (deallocateBatch_within sc _).mono (fun _ => id) (by rw [List.length_drop]; omega)
  · rw [if_neg hlt]
    exact within_done trivial _

/-- Where a push fails, what is left is released, and that is the end. -/
theorem republish_within (sc : Nat) (hbatch : batch.length ≤ maxBatchSize) (got : Nat) :
    (republish sc batch got).Within batches (fun _ => True) (2 * got + 2) := by
  induction got with
  | zero => exact within_done trivial _
  | succ got ih =>
      have hlen : (batch.take (got + 1)).length ≤ batch.length ∧
          (batch.take (got + 1)).length ≤ got + 1 := by
        rw [List.length_take]
        omega
      refine within_perform_bind (n := 2 * got + 3) trivial fun (ok : Bool) _ => ?_
      cases ok with
      | true => exact ih.mono (fun _ => id) (by omega)
      | false =>
          exact (releaseBatch_within sc (hlen.1.trans hbatch)).mono (fun _ => id) (by omega)

theorem drain_within (sc left : Nat) (batch : List Nat) :
    (drain sc left batch).Within batches
      (fun out : List Nat => out.length ≤ batch.length + left) left := by
  induction left generalizing batch with
  | zero => exact Nat.le_refl _
  | succ left ih =>
      refine within_perform_bind trivial fun p _ => ?_
      by_cases hp : p = (0 : Nat)
      · rw [if_pos hp]
        show batch.length ≤ batch.length + (left + 1)
        exact Nat.le_add_right _ _
      · rw [if_neg hp]
        refine (ih (batch ++ [p])).mono (fun out hout => ?_) (Nat.le_refl _)
        rw [List.length_append, List.length_singleton] at hout
        omega

/-! ### The two calls -/

theorem batchSize_le (sc : Nat) : (sizeClass sc).batchSize ≤ maxBatchSize := by
  by_cases h : 1 ≤ sc ∧ sc < numSizeClasses
  · exact (sizeClass_ok h.1 h.2).2.2.2.2.2
  · rcases Nat.eq_zero_or_pos sc with rfl | hpos
    · decide
    · have hout : numSizeClasses ≤ sc := by omega
      rw [sizeClass, List.getD_eq_getElem?_getD, List.getElem?_eq_none hout]
      decide

theorem roundSizeClass_batchSize (n : Nat) :
    (roundSizeClass n).1.batchSize ≤ maxBatchSize := by
  rcases Nat.lt_or_ge maxSize n with hn | hn
  · rw [roundSizeClass_of_gt hn]
    decide
  · rw [(roundSizeClass_spec hn).1]
    exact batchSize_le _

theorem allocate_within (n : Nat) :
    (allocate n).Within batches (fun _ => True) (3 * maxBatchSize + 2) := by
  have hbatch := roundSizeClass_batchSize n
  simp only [allocate]
  by_cases hsize : (roundSizeClass n).1.size = 0
  · rw [if_pos hsize]
    exact within_done trivial _
  · rw [if_neg hsize]
    refine within_perform_bind trivial fun p _ => ?_
    by_cases hp : p ≠ (0 : Nat)
    · rw [if_pos hp]
      exact within_done trivial _
    · rw [if_neg hp]
      refine ((refillBatch_within _ hbatch).bind (m := 2 * maxBatchSize) fun batch hlen => ?_).mono
        (fun _ => id) (by omega)
      by_cases h0 : batch.length = 0
      · rw [if_pos h0]
        exact within_done trivial _
      · rw [if_neg h0]
        refine ((republish_within _ (hlen.trans hbatch) _).bind (m := 0) fun _ _ => ?_).mono
          (fun _ => id) (by omega)
        exact within_done trivial _

theorem deallocateSlow_within (sc ptr : Nat) {size : Nat} (hsize : size ≤ maxBatchSize) :
    (deallocateSlow sc size ptr).Within batches (fun _ => True) (3 * maxBatchSize + 4) := by
  refine ((drain_within sc size []).bind (m := 2 * maxBatchSize + 4) fun batch hlen => ?_).mono
    (fun _ => id) (by omega)
  rw [List.length_nil, Nat.zero_add] at hlen
  have hrelease : (if 0 < batch.length then releaseBatch sc batch else pure ()).Within batches
      (fun _ => True) (2 * maxBatchSize + 1) := by
    split
    · exact (releaseBatch_within sc (hlen.trans hsize)).mono (fun _ => id) (by omega)
    · exact within_done trivial _
  refine hrelease.bind (m := 3) fun _ _ => within_perform_bind trivial fun (ok : Bool) _ => ?_
  cases ok with
  | true => exact within_done trivial _
  | false => exact centralFree_within sc ptr

theorem deallocate_within (ptr : Nat) :
    (deallocate ptr).Within batches (fun _ => True) (3 * maxBatchSize + 7) := by
  refine within_perform_bind trivial fun s _ => ?_
  cases s with
  | none => exact within_done trivial _
  | some s =>
      refine within_perform_bind trivial fun (size : Nat) _ => ?_
      show (if (sizeClass (sizeClassToIdx size)).size = 0 then _ else _ :
        Program Unit).Within batches (fun _ => True) (3 * maxBatchSize + 5)
      split
      · exact within_done trivial _
      · refine within_perform_bind trivial fun (ok : Bool) _ => ?_
        cases ok with
        | true => exact within_done trivial _
        | false => exact deallocateSlow_within _ ptr (batchSize_le _)

end Program

/-- The most actions that a call does. -/
def Call.bound : Call → Nat
  | .allocate _ => 3 * maxBatchSize + 2
  | .deallocate _ => 3 * maxBatchSize + 7

theorem Call.within (c : Call) : c.program.Within batches (fun _ => True) c.bound := by
  cases c with
  | allocate n => exact Program.allocate_within n
  | deallocate p => exact Program.deallocate_within p

variable {ι : Type} [Fintype ι] [DecidableEq ι] {t : ι} {c : Call} {u : Process ι}
  {ls ls' : List (Step ι Call Env ClientWrite)} {mem : Memory} {foreign : Nat → Bool}
  {slabPage slabCount : Nat}

/-- **Every call ends.**  In a run of any threads in any order, a call has done `Call.bound` actions
at most since its thread began it; where it is not over, its next action is defined whatever the CPU
and the kernel are, or it may return; and the batch that it is about to move fits
`batch[MAX_BATCH_SIZE]`, as does the count that `allocate` gives to `refill_batch`, and that to
`allocate_batch`. -/
theorem calls_end
    (r : (Process.system ι).Run (Process.init ι mem foreign slabPage slabCount)
      (ls ++ .start t c :: ls') u) (hls : ∀ x, Step.start t x ∉ ls') :
    ls'.countP (Step.isAct t) ≤ c.bound ∧
      (∀ n, c = .allocate n → (roundSizeClass n).1.batchSize ≤ maxBatchSize) ∧
      (u.threads t = .idle ∨
        (∃ u', (Process.system ι).step u (.finish t) = some u') ∨
        ∃ x g a k, u.threads t = .busy x g (.act a k) ∧ a.Fits ∧
          ls'.countP (Step.isAct t) < c.bound ∧
          ∀ e, ∃ u', (Process.system ι).step u (.act t e) = some u') := by
  obtain ⟨v, hv, hr⟩ := r.split
  have hok := ok_of_run hv
  cases hr with
  | @more _ w _ _ _ hstart hs hrest =>
      obtain ⟨-, g₀, s, -, hw⟩ := Machine.step_start hs
      obtain ⟨w', hw', hokw⟩ := machine_sound.step hok hstart
      obtain rfl := Option.some.inj (hs.symm.trans hw')
      have hbegun : ∀ x g p, w.threads t = .busy x g p →
          p.Within batches (fun _ => True) c.bound := by
        intro x g p hp
        rw [hw] at hp
        have hp : Function.update v.threads t (.busy c g₀ c.program) t = .busy x g p := hp
        rw [Function.update_self] at hp
        cases hp
        exact c.within
      obtain ⟨hle, hleft⟩ :=
        machine_sound.run_within (φ := fun _ _ => True) ok_of_ans hrest hokw hls hbegun
      refine ⟨hle, fun n _ => Program.roundSizeClass_batchSize n, ?_⟩
      cases hu : u.threads t with
      | idle => exact .inl rfl
      | busy x g p =>
          cases p with
          | done y => exact .inr (.inl ⟨_, (Machine.finish_eq hu).2⟩)
          | act a k =>
              have hwithin := hleft x g _ hu
              cases hn : c.bound - ls'.countP (Step.isAct t) with
              | zero =>
                  rw [hn] at hwithin
                  exact hwithin.elim
              | succ m =>
                  rw [hn] at hwithin
                  refine .inr (.inr ⟨x, g, a, k, rfl, hwithin.1, by omega, fun e => ?_⟩)
                  -- the action has what it needs, since the calls are sound
                  obtain ⟨hi, hwp⟩ := ok_of_run r
                  obtain ⟨b, s', hb, -⟩ := machine_sound.perform e hi
                    (show Machine.ghosts u t = some g by rw [Machine.ghosts, hu]; rfl)
                    (hwp t x g _ hu).1
                  exact ⟨_, (Machine.act_eq hu hb).2⟩

/-- The other thread is in the middle of its call, after one action of its own and seven of the
first thread's. -/
theorem calls_end_sample : ∃ u, (Process.system (Fin 2)).Run
    (Process.init (Fin 2) Memory.zero (fun _ => false) 1000 1) sampleSteps u ∧
      (sampleSteps.drop 3).countP (Step.isAct 1) ≤ (Call.allocate 100).bound := by
  obtain ⟨u, -, r, -⟩ := sampleSteps_run
  have r' : (Process.system (Fin 2)).Run
      (Process.init (Fin 2) Memory.zero (fun _ => false) 1000 1)
      (sampleSteps.take 2 ++ .start 1 (.allocate 100) :: sampleSteps.drop 3) u := r
  refine ⟨u, r, (calls_end r' ?_).1⟩
  intro x hx
  simp [sampleSteps] at hx

end TieredAllocator
