import TieredAllocator.Allocator.Ownership

/-!
# Allocator — one class per call

Each action of a call is on the class the call is about (`Action.InClass`): `allocate` fixes it by
the size asked for (`Program.allocate_all`), `deallocate` by the size its span records
(`Program.deallocate_inClass`).
-/

namespace TieredAllocator
open Lib

/-- The action is on the slabs, the transfer cache or the central list of class `c`, or it only
reads. -/
def Action.InClass (c : Nat) : Action → Prop
  | .slabPop sc | .slabPush sc _ | .removeRange sc _ | .insertRange sc _ | .centralAllocate sc
  | .centralDeallocate sc _ _ => sc = c
  | .spanFor _ | .spanSize _ => True

/-- The action takes no object from a central list. -/
def Action.NoFetch : Action → Prop
  | .centralAllocate _ => False
  | .slabPop _ | .slabPush _ _ | .removeRange _ _ | .insertRange _ _ | .spanFor _ | .spanSize _
  | .centralDeallocate _ _ _ => True

/-- The action is in class `c`, and takes no object from the central list. -/
def Action.Back (c : Nat) (a : Action) : Prop := a.InClass c ∧ a.NoFetch

/-- The rules, with each action in class `c`. -/
abbrev rulesIn (c : Nat) : Prog.Rules Action Answer Held :=
  ⟨fun g a => Pre g a ∧ a.InClass c, Ans, Held.track⟩

namespace Program
open Prog

variable {sc ptr : Nat}

/-! ### What the programs do -/

theorem allocateBatch_all (sc count : Nat) : (allocateBatch sc count).All (Action.InClass sc) := by
  induction count with
  | zero => trivial
  | succ count ih => exact ⟨rfl, fun p => .ite (fun _ => trivial) fun _ => ih.bind fun _ => trivial⟩

theorem centralFree_all {φ : Action → Prop} (hfor : φ (.spanFor ptr))
    (hfree : ∀ s, φ (.centralDeallocate sc s ptr)) : (centralFree sc ptr).All φ := by
  rw [centralFree]
  split
  · trivial
  · refine ⟨hfor, fun s => ?_⟩
    cases s with
    | none => trivial
    | some t => exact ⟨hfree t, fun _ => trivial⟩

theorem deallocateBatch_all {φ : Action → Prop} {ps : List Nat}
    (h : ∀ p ∈ ps, φ (.spanFor p) ∧ ∀ s, φ (.centralDeallocate sc s p)) :
    (deallocateBatch sc ps).All φ := by
  induction ps with
  | nil => trivial
  | cons p ps ih =>
      obtain ⟨hfor, hfree⟩ := h p List.mem_cons_self
      exact (centralFree_all hfor hfree).bind fun _ =>
        ih fun q hq => h q (List.mem_cons_of_mem _ hq)

/-- What holds of the insertion and of each return holds of `release_batch`. -/
theorem releaseBatch_all {φ : Action → Prop} {batch : List Nat} (hins : φ (.insertRange sc batch))
    (h : ∀ p ∈ batch, φ (.spanFor p) ∧ ∀ s, φ (.centralDeallocate sc s p)) :
    (releaseBatch sc batch).All φ :=
  ⟨hins, fun _ => .ite (fun _ => deallocateBatch_all fun p hp => h p (List.mem_of_mem_drop hp))
    fun _ => trivial⟩

theorem releaseBatch_back (sc : Nat) (batch : List Nat) :
    (releaseBatch sc batch).All (Action.Back sc) :=
  releaseBatch_all ⟨rfl, trivial⟩ fun _ _ => ⟨⟨trivial, trivial⟩, fun _ => ⟨rfl, trivial⟩⟩

theorem refillBatch_all (sc count : Nat) : (refillBatch sc count).All (Action.InClass sc) :=
  ⟨rfl, fun _ => .ite (fun _ => allocateBatch_all sc count) fun _ => trivial⟩

theorem republish_back (sc : Nat) (batch : List Nat) (got : Nat) :
    (republish sc batch got).All (Action.Back sc) := by
  induction got with
  | zero => trivial
  | succ got ih =>
      exact ⟨⟨rfl, trivial⟩, fun ok => .ite (fun _ => ih) fun _ => releaseBatch_back sc _⟩

/-- What `allocate` does with the batch it has got. -/
def serve (sc : Nat) (batch : List Nat) : Program Nat :=
  if batch.length = 0 then pure 0
  else do
    republish sc batch (batch.length - 1)
    pure (batch.getD (batch.length - 1) 0)

theorem allocate_eq {n : Nat} (hn : n ≤ maxSize) :
    allocate n = slabPop (roundSizeClass n).2 >>= fun p =>
      if p ≠ 0 then pure p
      else refillBatch (roundSizeClass n).2 (sizeClass (roundSizeClass n).2).batchSize >>=
        serve (roundSizeClass n).2 := by
  obtain ⟨hsc, h₁, h₂, -, -⟩ := roundSizeClass_spec hn
  have hsize := (sizeClass_ok h₁ h₂).1
  have hne : (roundSizeClass n).1.size ≠ 0 := by rw [hsc]; omega
  rw [← hsc]
  simp only [allocate, if_neg hne]
  rfl

theorem serve_back (sc : Nat) (batch : List Nat) : (serve sc batch).All (Action.Back sc) :=
  .ite (fun _ => trivial) fun _ => (republish_back _ _ _).bind fun _ => trivial

/-- `allocate` works on the class of the size asked for. -/
theorem allocate_all (n : Nat) : (allocate n).All (Action.InClass (roundSizeClass n).2) := by
  rw [allocate]
  refine .ite (fun _ => trivial) fun _ => ⟨rfl, fun p => .ite (fun _ => trivial) fun _ => ?_⟩
  refine (refillBatch_all _ _).bind fun batch => .ite (fun _ => trivial) fun _ => ?_
  exact ((republish_back _ _ _).mono fun _ h => h.1).bind fun _ => trivial

theorem drain_back (sc left : Nat) (batch : List Nat) :
    (drain sc left batch).All (Action.Back sc) := by
  induction left generalizing batch with
  | zero => trivial
  | succ left ih => exact ⟨⟨rfl, trivial⟩, fun p => .ite (fun _ => trivial) fun _ => ih _⟩

theorem deallocateSlow_back (sc size ptr : Nat) :
    (deallocateSlow sc size ptr).All (Action.Back sc) := by
  refine (drain_back sc size []).bind fun batch => Prog.All.bind ?_ fun _ => ?_
  · exact .ite (fun _ => releaseBatch_back sc batch) fun _ => trivial
  · refine ⟨⟨rfl, trivial⟩, fun ok => .ite (fun _ => trivial) fun _ => ?_⟩
    exact centralFree_all ⟨trivial, trivial⟩ fun _ => ⟨rfl, trivial⟩

/-- `deallocate` takes no object from a central list. -/
theorem deallocate_noFetch (ptr : Nat) : (deallocate ptr).All Action.NoFetch := by
  refine ⟨trivial, fun s => ?_⟩
  cases s with
  | none => trivial
  | some s =>
      refine ⟨trivial, fun size => .ite (fun _ => trivial) fun _ => ?_⟩
      exact ⟨trivial, fun ok => .ite (fun _ => trivial) fun _ =>
        (deallocateSlow_back _ _ _).mono fun _ h => h.2⟩

/-- `deallocate` works on the class its object is held under. -/
theorem deallocate_inClass (hne : ptr ≠ 0) :
    (deallocate ptr).wp (rulesIn sc) (Done (.deallocate ptr)) (({} : Held).gain sc {ptr}) := by
  have hobjs : (({} : Held).gain sc {ptr}).objs = inClass sc {ptr} := add_zero _
  have hmem : ptr ∈ (({} : Held).gain sc {ptr}).objs sc := by rw [hobjs]; simp [inClass]
  obtain ⟨hfor, hrest⟩ : (deallocate ptr).wp rules (Done (.deallocate ptr))
      (({} : Held).gain sc {ptr}) := deallocate_wp hne
  refine ⟨⟨hfor, trivial⟩, fun s hs => ?_⟩
  obtain ⟨t, rfl⟩ := hs
  obtain ⟨hsize, hrest⟩ := hrest (some t) ⟨t, rfl⟩
  refine ⟨⟨hsize, trivial⟩, fun size hans => ?_⟩
  -- the size the span records is the size of the class
  have hclass := hans sc ptr hmem (by simp [Held.track])
  replace hrest := hrest size hans
  obtain ⟨-, h₂, rfl⟩ := hclass
  refine wp_all hrest (.ite (fun _ => trivial) fun _ => ?_)
  rw [sizeClassToIdx_size h₂]
  exact ⟨rfl, fun ok => .ite (fun _ => trivial) fun _ =>
    (deallocateSlow_back _ _ _).mono fun _ h => h.1⟩

end Program

/-- Each call works on one class. -/
theorem allocate_inClass (n : Nat) : (Program.allocate n).wp (rulesIn (roundSizeClass n).2)
    (Done (.allocate n)) {} :=
  Prog.wp_all (Program.allocate_wp n) (Program.allocate_all n)

end TieredAllocator
