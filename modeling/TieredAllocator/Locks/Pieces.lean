import TieredAllocator.Locks.Definitions

/-!
# Locks — the pieces put together

Done one after the other, the pieces of an action do what the action does: `allocate` and the locked
part of `deallocate` are the functions they were cut from (`Backend.allocate_eq`,
`Backend.deallocateLocked_eq`), and an expanded program run alone, with all mutexes free, gives what
the program gives, and leaves the mutexes free (`exec_expand_call`).
-/

namespace TieredAllocator
open Lib

namespace Backend

variable {b : Backend} {c : Nat} {s : SpanId} {ptr : Nat} {k : Kernel}

/-- What `allocate` does once `startAllocate` has come to `r`. -/
def goOn (k : Kernel) (c : Nat) (r : Chosen × Backend) : Option (Nat × Backend) :=
  match r.1 with
  | .result p => some (p, r.2)
  | .fetch pages size =>
      (r.2.pageHeap.allocateSpan k pages size).bind fun q =>
        { r.2 with pageHeap := q.2 }.resumeAllocate c q.1

theorem fetchFromPageHeap_eq (k : Kernel) (b : Backend) (c : Nat)
    (h : ¬ ((b.freeList c).size = 0 ∨ (b.freeList c).pages = 0)) :
    b.fetchFromPageHeap k c =
      (b.pageHeap.allocateSpan k (b.freeList c).pages (b.freeList c).size).bind fun q =>
        match q.1 with
        | none => some { b with pageHeap := q.2 }
        | some s => { b with pageHeap := q.2 }.attachSpan c s := by
  rw [fetchFromPageHeap]
  simp only [if_neg h]
  refine Option.bind_congr fun q _ => ?_
  obtain ⟨span, heap⟩ := q
  cases span <;> rfl

theorem attachSpan_current {b' : Backend} (h : b.attachSpan c s = some b') :
    (b'.freeList c).currentSpan = some s := by
  simp only [attachSpan, Option.bind_eq_bind, Option.bind_eq_some_iff] at h
  obtain ⟨x, -, h⟩ := h
  have hset : ∀ {h' : PageHeap} {l : CentralFreeList}, l.currentSpan = some s →
      (({ b with pageHeap := h' }.setList c l).freeList c).currentSpan = some s := by
    intro h' l hl
    exact (congrArg CentralFreeList.currentSpan (Function.update_self ..)).trans hl
  split at h
  · simp only [Option.bind_eq_some_iff] at h
    obtain ⟨y, -, h₁, -, z, -, h⟩ := h
    split at h
    · cases h
    · rw [← Option.some.inj h]
      exact hset rfl
  · simp only [Option.bind_eq_some_iff] at h
    obtain ⟨h₁, -, z, -, h⟩ := h
    split at h
    · cases h
    · rw [← Option.some.inj h]
      exact hset rfl

/-- Behind the choice of a span in the list, `allocate` is the rest of its first piece and what
follows. -/
theorem allocate_rest (k : Kernel) (b : Backend) (c : Nat) :
    ((if (b.freeList c).currentSpan.isNone then b.fetchFromPageHeap k c else some b).bind fun b =>
      match (b.freeList c).currentSpan with
      | none => some (0, b)
      | some s => b.takeFrom c s) = (b.chosen c).bind (goOn k c) := by
  rw [chosen]
  cases hcur : (b.freeList c).currentSpan with
  | some s =>
      simp only [Option.isNone_some, Bool.false_eq_true, if_false, Option.bind_some, hcur,
        Option.bind_eq_bind, Option.bind_assoc, goOn]
      exact (Option.bind_fun_some _).symm
  | none =>
      simp only [Option.isNone_none, if_true]
      by_cases h0 : (b.freeList c).size = 0 ∨ (b.freeList c).pages = 0
      · rw [if_pos h0, fetchFromPageHeap]
        simp only [if_pos h0, Option.bind_some, hcur, goOn]
      · rw [if_neg h0, fetchFromPageHeap_eq k b c h0, Option.bind_assoc]
        simp only [Option.bind_some, goOn]
        refine Option.bind_congr fun q _ => ?_
        obtain ⟨span, heap⟩ := q
        cases span with
        | none => simp only [Option.bind_some, hcur, resumeAllocate]
        | some s =>
            simp only [resumeAllocate, Option.bind_eq_bind]
            refine Option.bind_congr fun b₂ hb₂ => ?_
            rw [attachSpan_current hb₂]

/-- `allocate` is its first piece, the call of the page heap if it comes to it, and the rest. -/
theorem allocate_eq (k : Kernel) (b : Backend) (c : Nat) :
    b.allocate k c = (b.startAllocate c).bind (goOn k c) := by
  simp only [allocate, chooseSpan, startAllocate, Option.bind_eq_bind, Option.bind_assoc]
  refine Option.bind_congr fun avail _ => ?_
  cases avail with
  | true => exact allocate_rest k b c
  | false =>
      simp only [Bool.false_eq_true, if_false, Option.bind_assoc, Option.bind_some]
      exact Option.bind_congr fun s _ => allocate_rest k _ c

theorem releaseToPageHeap_eq (b : Backend) (c : Nat) (s : SpanId) :
    b.releaseToPageHeap c s = (b.detachSpan c s).bind fun b =>
      (b.pageHeap.returnSpan (some s)).map fun h => { b with pageHeap := h } := by
  simp only [releaseToPageHeap, detachSpan, Option.bind_eq_bind, Option.bind_assoc]
  refine Option.bind_congr fun x _ => Option.bind_congr fun r _ => Option.bind_congr fun y _ => ?_
  rw [Option.bind_some, Option.map_eq_bind]
  rfl

/-- The locked part of `deallocate` is its first piece, and the call of the page heap. -/
theorem deallocateLocked_eq (b : Backend) (c : Nat) (s : SpanId) (ptr : Nat) :
    b.deallocateLocked c s ptr = (b.startDeallocate c s ptr).bind fun r =>
      if r.1 then (r.2.pageHeap.returnSpan (some s)).map fun h => { r.2 with pageHeap := h }
      else some r.2 := by
  rw [deallocateLocked, startDeallocate]
  by_cases h0 : (b.freeList c).size = 0
  · simp only [if_pos h0, Option.bind_none]
  · simp only [if_neg h0, Option.bind_eq_bind, Option.bind_assoc]
    refine Option.bind_congr fun x _ => ?_
    split
    · rw [releaseToPageHeap_eq, Option.bind_assoc]
      refine Option.bind_congr fun b₁ _ => ?_
      simp only [Option.bind_some, if_true]
    · simp only [Option.bind_some, Bool.false_eq_true, if_false]

end Backend

/-! ### Programs run alone -/

namespace LockedProgram

variable {β : Type} {e : Env} {w : World} {f : Mutex → Bool}

/-- Under a free mutex, a program that leaves the mutexes does what it does, and frees it. -/
theorem exec_guarded {m : Mutex} {p : LockedProgram β} {x : Option (β × World)} (hm : f m = false)
    (hp : p.exec LockedWorld.perform (fun _ => e) ⟨w, Function.update f m true⟩ =
      x.map fun r => (r.1, ⟨r.2, Function.update f m true⟩)) :
    (guarded m p).exec LockedWorld.perform (fun _ => e) ⟨w, f⟩ =
      x.map fun r => (r.1, ⟨r.2, f⟩) := by
  have hlock : LockedWorld.perform e ⟨w, f⟩ (.lock m) =
      some ((), ⟨w, Function.update f m true⟩) := if_neg (by simp [hm])
  rw [guarded, piece, Prog.exec_perform_bind, hlock, Option.bind_some, Prog.exec_bind, hp]
  cases x with
  | none => rfl
  | some r =>
      have hunlock : LockedWorld.perform e ⟨r.2, Function.update f m true⟩ (.unlock m) =
          some ((), ⟨r.2, f⟩) := by
        rw [LockedWorld.perform, if_pos (Function.update_self ..), Function.update_idem, ← hm,
          Function.update_eq_self]
      rw [Option.map_some, Option.bind_some, piece, Prog.exec_perform_bind, hunlock]
      rfl

theorem exec_piece (a : Piece) (w : LockedWorld) :
    (piece a).exec LockedWorld.perform (fun _ => e) w = w.perform e a := by
  rw [piece, ← bind_pure (Prog.perform a), Prog.exec_perform_bind]
  exact Option.bind_fun_some _

theorem exec_allocateSpan {pages size : Nat} (hf : f .heap = false) :
    (allocateSpan pages size).exec LockedWorld.perform (fun _ => e) ⟨w, f⟩ =
      (w.allocator.backend.pageHeap.allocateSpan e.kernel pages size).map fun q =>
        (q.1, ⟨{ w with allocator.backend.pageHeap := q.2 }, f⟩) := by
  rw [allocateSpan]
  split
  · rw [PageHeap.allocateSpan, if_pos ‹_›]
    rfl
  · rw [exec_guarded (x := (w.allocator.backend.pageHeap.allocateSpan e.kernel pages size).map
      fun q => (q.1, { w with allocator.backend.pageHeap := q.2 })) hf]
    · rw [Option.map_map]
      rfl
    · rw [exec_piece, Option.map_map]
      rfl

theorem exec_returnSpan {s : SpanId} (hf : f .heap = false) :
    (returnSpan s).exec LockedWorld.perform (fun _ => e) ⟨w, f⟩ =
      (w.allocator.backend.pageHeap.returnSpan (some s)).map fun h =>
        ((), ⟨{ w with allocator.backend.pageHeap := h }, f⟩) := by
  rw [returnSpan, exec_guarded (x := (w.allocator.backend.pageHeap.returnSpan (some s)).map
    fun h => ((), { w with allocator.backend.pageHeap := h })) hf]
  · rw [Option.map_map]
    rfl
  · rw [exec_piece, Option.map_map]
    rfl

theorem exec_whole (a : Action) :
    (piece (.whole a)).exec LockedWorld.perform (fun _ => e) ⟨w, f⟩ =
      (w.perform e a).map fun r => (r.1, ⟨r.2, f⟩) := exec_piece _ _

theorem exec_centralAllocate (sc : Nat) :
    (centralAllocate sc).exec LockedWorld.perform (fun _ => e) (.free w) =
      (w.perform e (.centralAllocate sc)).map fun r => (r.1, .free r.2) := by
  refine exec_guarded rfl ?_
  have hheap : Function.update (fun _ => false) (Mutex.list sc) true .heap = false := rfl
  generalize Function.update (fun _ => false) (Mutex.list sc) true = f at hheap
  rw [piece, Prog.exec_perform_bind, World.perform, Allocator.perform, Backend.allocate_eq,
    LockedWorld.perform, Option.map_map, Option.map_map, Option.bind_map, Option.map_bind]
  refine Option.bind_congr fun r _ => ?_
  obtain ⟨chosen, b⟩ := r
  cases chosen with
  | result ptr => rfl
  | fetch pages size =>
      show (allocateSpan pages size >>= fun span => piece (.resumeAllocate sc span)).exec
        LockedWorld.perform (fun _ => e) ⟨{ w with allocator.backend := b }, f⟩ = _
      rw [Prog.exec_bind, exec_allocateSpan hheap, Option.bind_map]
      simp only [Function.comp_apply, Backend.goOn, Option.map_bind]
      exact Option.bind_congr fun q _ => exec_piece _ _

theorem exec_centralDeallocate (sc : Nat) (s : SpanId) (ptr : Nat) :
    (centralDeallocate sc s ptr).exec LockedWorld.perform (fun _ => e) (.free w) =
      (w.perform e (.centralDeallocate sc s ptr)).map fun r => (r.1, .free r.2) := by
  refine exec_guarded rfl ?_
  have hheap : Function.update (fun _ => false) (Mutex.list sc) true .heap = false := rfl
  generalize Function.update (fun _ => false) (Mutex.list sc) true = f at hheap
  rw [piece, Prog.exec_perform_bind, World.perform, Allocator.perform, Backend.deallocateLocked_eq,
    LockedWorld.perform, Option.map_map, Option.map_map, Option.bind_map, Option.map_bind]
  refine Option.bind_congr fun r _ => ?_
  obtain ⟨released, b⟩ := r
  cases released with
  | false => rfl
  | true =>
      show (returnSpan s).exec LockedWorld.perform (fun _ => e)
        ⟨{ w with allocator.backend := b }, f⟩ = _
      rw [exec_returnSpan hheap]
      simp only [Function.comp_apply, if_true, Option.map_map]
      rfl

end LockedProgram

/-- **Alone.**  With all mutexes free, the pieces of an action do what the action does. -/
theorem exec_expand_action (e : Env) (w : World) (a : Action) :
    (LockedProgram.expand a).exec LockedWorld.perform (fun _ => e) (.free w) =
      (w.perform e a).map fun r => (r.1, .free r.2) := by
  cases a with
  | slabPop sc => exact LockedProgram.exec_whole (.slabPop sc)
  | slabPush sc ptr => exact LockedProgram.exec_whole (.slabPush sc ptr)
  | removeRange sc n => exact LockedProgram.exec_guarded rfl (LockedProgram.exec_whole _)
  | insertRange sc batch => exact LockedProgram.exec_guarded rfl (LockedProgram.exec_whole _)
  | centralAllocate sc => exact LockedProgram.exec_centralAllocate sc
  | spanFor ptr => exact LockedProgram.exec_guarded rfl (LockedProgram.exec_whole _)
  | spanSize s => exact LockedProgram.exec_whole (.spanSize s)
  | centralDeallocate sc s ptr => exact LockedProgram.exec_centralDeallocate sc s ptr

/-- Hence a call run alone at its locks and unlocks gives what it gives at its actions. -/
theorem exec_expand_call (e : Env) (w : World) (c : Call) :
    (lockedMachine.program c).exec LockedWorld.perform (fun _ => e) (.free w) =
      (c.program.exec World.perform (fun _ => e) w).map fun r => (r.1, .free r.2) :=
  Prog.exec_expand (fun a w => exec_expand_action e w a) c.program w

end TieredAllocator
