import TieredAllocator.Allocator.Frames

/-!
# Allocator — the free side

`deallocate` gets an address only.  In each state that any threads reach, a live block is an object
of a span in use (`Process.Contained`): it has room for the block, lies inside the pages of the
span, each address of it is mapped to the span, and the size the span records leads back to the
class the block was taken from.  The span stays the same one until the block is given back
(`live_contained`).
-/

namespace TieredAllocator
open Lib

variable {ι : Type} [Fintype ι]

/-- The block is object `i` of the span `s`, and `deallocate` finds the span and the class. -/
def Process.Contained (u : Process ι) (b : Block) (s : SpanId) (i : Nat) : Prop :=
  ∃ x, u.state.allocator.backend.pageHeap.spans s = some x ∧ x.isFree = false ∧
    i < x.totalObjects ∧ b.ptr = x.start * pageSize + i * x.size ∧ 0 < x.size ∧ b.size ≤ x.size ∧
    x.start * pageSize ≤ b.ptr ∧ b.ptr + x.size ≤ (x.start + x.numPages) * pageSize ∧
    (∀ a, b.ptr ≤ a → a < b.ptr + x.size →
      u.state.allocator.backend.pageHeap.spanFor a = some s) ∧
    sizeClassToIdx x.size = (roundSizeClass b.size).2

namespace World.Inv

variable {w w' : World} {γ : ι → Option Held} {t : ι} {g : Held} {b : Block}

/-- A live block is an object of a span in use. -/
theorem contained {u : Process ι} (hi : u.state.Inv γ) (hb : b ∈ u.state.live) :
    ∃ s i, u.Contained b s i := by
  obtain ⟨L, S, hback⟩ := hi.backend
  obtain ⟨s, x, i, hs, hx, hix, hptr, hsize, hle⟩ := hi.live_object hback hb
  have hsx := hback.serves _ s x hs hx
  obtain ⟨h₁, h₂⟩ := hsx.inside hix
  have hc : b.sc < numSizeClasses := (hi.range (live_handed hb)).2.1
  have hpos : 0 < x.size := lt_of_lt_of_le (by decide) hsx.roomy
  refine ⟨s, i, x, hx, hsx.used, hix, hptr, hpos, hle, hptr ▸ h₁, ?_, fun a ha ha' => ?_, ?_⟩
  · rw [hptr, Nat.add_mul]
    exact h₂
  · exact hback.spanFor_eq hs hx hix (hptr ▸ ha) (hptr ▸ ha')
  · rw [hsize]
    exact sizeClassToIdx_size hc

variable [DecidableEq ι]

/-- No action changes the span of a live block. -/
theorem spanFor_live (hi : w.Inv γ) (hg : γ t = some g) {a : Action} (ha : Pre g a) {e : Env}
    {r : Answer a} (h : w.perform e a = some (r, w')) (hb : b ∈ w.live) :
    w'.allocator.backend.pageHeap.spanFor b.ptr = w.allocator.backend.pageHeap.spanFor b.ptr := by
  obtain ⟨L, S, hback⟩ := hi.backend
  cases a with
  | slabPop sc | slabPush sc ptr | removeRange sc n | insertRange sc batch | spanFor ptr =>
      obtain ⟨-, rfl⟩ := Prod.mk.inj (Option.some.inj h)
      rfl
  | spanSize s =>
      simp only [World.perform, Allocator.perform, Option.map_map, Option.map_eq_some_iff] at h
      obtain ⟨x, -, hx⟩ := h
      obtain ⟨-, rfl⟩ := Prod.mk.inj hx
      rfl
  | centralAllocate sc =>
      obtain ⟨q, b', L', S', hq, -, -, -, hsteady, -⟩ :=
        Backend.allocate_spec hback (sizeClass_classOk sc) e.kernel
      simp only [World.perform, Allocator.perform, hq, Option.map_some, Option.some.injEq] at h
      obtain ⟨rfl, rfl⟩ := Prod.mk.inj h
      have hlive := live_handed (γ := γ) hb
      exact hsteady.route _ _ hlive hlive
  | centralDeallocate sc s ptr =>
      obtain ⟨x, b', L', S', -, -, hres, -, hw, hsteady, -⟩ :=
        Backend.deallocateLocked_spec hback (mem_handed hg ha.1) ((hi.routed t g hg) ptr s ha.2).2
      simp only [World.perform, Allocator.perform, hres, Option.map_some, Option.some.injEq] at h
      obtain ⟨rfl, rfl⟩ := Prod.mk.inj h
      refine hsteady.route b.sc b.ptr (live_handed hb) ?_
      -- the block is live after the step too, so it is still handed out
      rw [← handed_lose hg ha.1 (hi.slabs_congr hback rfl hi.sound hw).2]
      exact live_handed (w := { w with allocator := { w.allocator with backend := b' } }) hb

end World.Inv

/-- No step changes the span of a live block. -/
theorem spanFor_step [DecidableEq ι] {u u' : Process ι} {l : Step ι Call Env ClientWrite}
    {b : Block} (hok : machine.Ok Pre Ans Done World.Inv u)
    (h : (Process.system ι).step u l = some u') (hb : b ∈ u.state.live) :
    u'.state.allocator.backend.pageHeap.spanFor b.ptr =
      u.state.allocator.backend.pageHeap.spanFor b.ptr := by
  cases l with
  | start t c => rw [start_mem h]
  | finish t => rw [finish_mem h]
  | client x =>
      obtain ⟨w, hw, rfl⟩ := Option.map_eq_some_iff.mp h
      change World.client u.state x = some w at hw
      rw [World.client] at hw
      split at hw
      · obtain rfl := Option.some.inj hw
        rfl
      · cases hw
  | act t e =>
      obtain ⟨c, g, a, p, r, w, ht, hres, rfl⟩ := Machine.step_act h
      have hg : Machine.ghosts u t = some g := by
        rw [Machine.ghosts, ht]
        rfl
      exact hok.1.spanFor_live hg (hok.2 t c g _ ht).1 hres hb

/-- **Containment and routing.**  In each state that any number of threads reach, each live block
is an object of a span in use which each address of the object is mapped to, and of the class the
block was taken from; and so it stays, with the same span, while the block is live. -/
theorem live_contained [DecidableEq ι] {mem : Memory} {foreign : Nat → Bool}
    {slabPage slabCount : Nat} {ls : List (Step ι Call Env ClientWrite)} {u : Process ι}
    (r : (Process.system ι).Run (Process.init ι mem foreign slabPage slabCount) ls u)
    {b : Block} (hb : b ∈ u.state.live) :
    ∃ s, (∃ i, u.Contained b s i) ∧ ∀ ls' u', (Process.system ι).Run u ls' u' →
      (Process.system ι).Throughout (fun v => b ∈ v.state.live) u ls' →
        ∃ i, u'.Contained b s i := by
  have hok := ok_of_run r
  obtain ⟨s, i, hc⟩ := hok.1.contained hb
  refine ⟨s, ⟨i, hc⟩, fun ls' u' r' hlive => ?_⟩
  -- the span the page map has for the block
  have hspan : ∀ {v : Process ι} {s' j}, v.Contained b s' j →
      v.state.allocator.backend.pageHeap.spanFor b.ptr = some s' := by
    rintro v s' j ⟨x, -, -, -, -, hpos, -, -, -, hfor, -⟩
    exact hfor b.ptr (le_refl _) (Nat.lt_add_of_pos_right hpos)
  have hfor := r'.while (I := machine.Ok Pre Ans Done World.Inv)
    (P := fun v => b ∈ v.state.live)
    (Q := fun v => v.state.allocator.backend.pageHeap.spanFor b.ptr = some s)
    (fun hv ha hstep => ?_) (fun hv hbv _ _ hstep hs => (spanFor_step hv hstep hbv).trans hs)
    hok hlive (hspan hc)
  · have hlast : b ∈ u'.state.live :=
      System.Throughout.last (P := fun v : Process ι => b ∈ v.state.live) r' hlive
    obtain ⟨s', j, hc'⟩ := (machine_sound.run r' hok).1.contained hlast
    obtain rfl := Option.some.inj ((hspan hc').symm.trans hfor)
    exact ⟨j, hc'⟩
  · obtain ⟨v', hv', hok'⟩ := machine_sound.step hv ha
    rwa [Option.some.inj (hv'.symm.trans hstep)] at hok'

/-- The block of `sampleSteps`. -/
theorem live_contained_sample : ∃ u : Process (Fin 2),
    ∃ s i, u.Contained ⟨196608, 20000⟩ s i := by
  obtain ⟨u, -, r, hlive, -⟩ := sampleSteps_run
  obtain ⟨s, ⟨i, hc⟩, -⟩ := live_contained r (b := ⟨196608, 20000⟩)
    (by rw [hlive]; exact List.mem_singleton_self _)
  exact ⟨u, s, i, hc⟩

end TieredAllocator
