import TieredAllocator.Allocator.Isolation

/-!
# Allocator — the stacks of the slabs

`World.height` is the height of the stack of a class on a CPU.  A pop on that CPU takes the top, or
finds the height zero (`World.Inv.pop_cases`); a push on a full stack does nothing; an action that
is not on the slabs leaves all heights (`World.Inv.offSlabs`).
-/

namespace TieredAllocator
open Lib

/-- The action is not on the slabs. -/
def Action.OffSlabs : Action → Prop
  | .slabPop _ | .slabPush _ _ => False
  | .removeRange _ _ | .insertRange _ _ | .centralAllocate _ | .spanFor _ | .spanSize _
  | .centralDeallocate _ _ _ => True

namespace World

variable {ι : Type} [Fintype ι] {w w' : World} {γ : ι → Option Held} {t : ι} {g : Held}
  {a : Action} {e : Env} {c cpu p : Nat}

/-- The height of the stack of a class on a CPU. -/
def height (w : World) (cpu c : Nat) : Nat :=
  Slabs.current w.allocator.backend.mem (Slabs.getSlabs w.allocator.perCpuCaches cpu) c

namespace Inv

/-- What is on a stack is handed out. -/
theorem stack_handed (hc : c < numSizeClasses) (hcpu : cpu < w.allocator.slabCount)
    (hp : p ∈ Slabs.stack w.allocator.backend.mem w.allocator.perCpuCaches cpu c) :
    p ∈ w.handed γ c := by
  have hmem : p ∈ slabObjects w.allocator c := by
    rw [slabObjects, Slabs.objects, if_pos hc, Multiset.mem_sum]
    exact ⟨cpu, Finset.mem_range.mpr hcpu, hp⟩
  simp only [handed, Pi.add_apply, Multiset.mem_add]
  exact .inl (.inr hmem)

/-- A pop takes the top, which is not null. -/
theorem pop_cases (hi : w.Inv γ) (hc : c < numSizeClasses) (hcpu : cpu < w.allocator.slabCount)
    (k : Kernel) :
    (w.height cpu c = 0 ∧ w.perform ⟨cpu, k⟩ (.slabPop c) = some ((0 : Nat), w)) ∨
      ∃ q m', q ≠ 0 ∧ w.perform ⟨cpu, k⟩ (.slabPop c) =
          some (q, { w with allocator := w.allocator.setMem m' }) ∧
        ({ w with allocator := w.allocator.setMem m' } : World).height cpu c + 1 =
          w.height cpu c := by
  have heq : Slabs.slabPop w.allocator.backend.mem w.allocator.perCpuCaches w.allocator.slabCount
      cpu c = Slabs.fallbackAllocate w.allocator.backend.mem
        (Slabs.getSlabs w.allocator.perCpuCaches cpu) c := by
    simp only [Slabs.slabPop, Slabs.getSlabsChecked, if_neg (not_le.mpr hcpu)]
  rcases Slabs.fallbackAllocate_spec hc (hi.bounded cpu hcpu c hc) with
    ⟨hnil, hres⟩ | ⟨l, q, m', hl, hres, -, hcur, -⟩
  · refine .inl ⟨?_, ?_⟩
    · rw [height, ← Slabs.stack_length, hnil]
      rfl
    · simp only [World.perform, Allocator.perform, heq, hres]
      rfl
  · refine .inr ⟨q, m', ?_, ?_, hcur⟩
    · exact (hi.range (stack_handed hc hcpu (by rw [hl]; simp))).2.2.1
    · simp only [World.perform, Allocator.perform, heq, hres]
      rfl

/-- A push on a full slab does nothing. -/
theorem push_full (hcpu : cpu < w.allocator.slabCount) (p : Nat) (k : Kernel)
    (hfull : ¬ w.height cpu c < slabCapacity c) :
    w.perform ⟨cpu, k⟩ (.slabPush c p) = some (false, w) := by
  have hres : Slabs.slabPush w.allocator.backend.mem w.allocator.perCpuCaches
      w.allocator.slabCount cpu c p = (false, w.allocator.backend.mem) := by
    simp only [Slabs.slabPush, Slabs.getSlabsChecked, if_neg (not_le.mpr hcpu),
      Slabs.fallbackDeallocate]
    exact if_neg hfull
  simp only [World.perform, Allocator.perform, hres]
  rfl

/-- An action that is not on the slabs leaves them. -/
theorem offSlabs (hi : w.Inv γ) (hg : γ t = some g) (ha : Pre g a) (hoff : a.OffSlabs)
    {r : Answer a} (h : w.perform e a = some (r, w')) :
    w'.allocator.slabCount = w.allocator.slabCount ∧
      ∀ cpu < w.allocator.slabCount, ∀ c < numSizeClasses, w'.height cpu c = w.height cpu c := by
  obtain ⟨L, S, hb⟩ := hi.backend
  -- a store into an object is outside the slabs
  have hcentral : ∀ {b' b₀ : Backend} {L₀ S₀ : Nat → List SpanId} {out₀ : Nat → Multiset Nat}
      {o : Multiset Nat} {d : Nat}, Backend.Inv sizeClass b₀ out₀ L₀ S₀ →
      b₀.pageHeap.os.foreign = w.allocator.backend.pageHeap.os.foreign →
      (∀ q, b₀.pageHeap.os.owned q = true → b₀.pageHeap.os.foreign q = false) →
      Memory.Wrote (Backend.FreeObject b₀ S₀ o d) w.allocator.backend.mem b'.mem →
      ∀ cpu < w.allocator.slabCount, ∀ c < numSizeClasses,
        ({ w with allocator := { w.allocator with backend := b' } } : World).height cpu c =
          w.height cpu c := by
    intro b' b₀ L₀ S₀ out₀ o d hb₀ hforeign hsound hw cpu hcpu c hc
    obtain ⟨h₁, h₂⟩ := Slabs.current_region w.allocator.perCpuCaches hcpu hc
    refine Memory.load_congr _ _ fun x h₃ h₄ => hi.region_byte hb₀ hforeign hsound hw ?_ ?_
    · exact h₁.trans h₃
    · exact h₄.trans_le h₂
  cases a with
  | slabPop sc | slabPush sc ptr => exact hoff.elim
  | removeRange sc n | insertRange sc batch | spanFor ptr =>
      obtain ⟨rfl, rfl⟩ := Prod.mk.inj (Option.some.inj h)
      exact ⟨rfl, fun _ _ _ _ => rfl⟩
  | spanSize s =>
      simp only [World.perform, Allocator.perform, Option.map_map, Option.map_eq_some_iff] at h
      obtain ⟨x, -, hx⟩ := h
      obtain ⟨-, rfl⟩ := Prod.mk.inj hx
      exact ⟨rfl, fun _ _ _ _ => rfl⟩
  | centralAllocate sc =>
      obtain ⟨q, b', L', S', hres, hb', -, hw, hsteady, -⟩ :=
        Backend.allocate_spec hb (sizeClass_classOk sc) e.kernel
      obtain ⟨hforeign, hsound⟩ := hsteady.os_sound hi.sound
      simp only [World.perform, Allocator.perform, hres, Option.map_some, Option.some.injEq] at h
      obtain ⟨rfl, rfl⟩ := Prod.mk.inj h
      exact ⟨rfl, hcentral hb' hforeign hsound hw⟩
  | centralDeallocate sc s ptr =>
      obtain ⟨x, b', L', S', -, -, hres, -, hw, -⟩ :=
        Backend.deallocateLocked_spec hb (mem_handed (w := w) hg ha.1)
          ((hi.routed t g hg) ptr s ha.2).2
      simp only [World.perform, Allocator.perform, hres, Option.map_some, Option.some.injEq] at h
      obtain ⟨rfl, rfl⟩ := Prod.mk.inj h
      exact ⟨rfl, hcentral hb rfl hi.sound hw⟩

end Inv

end World

end TieredAllocator
