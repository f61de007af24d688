import TieredAllocator.Allocator.Requests
import TieredAllocator.Allocator.Isolation
import TieredAllocator.CentralFreeList.Teardown

/-!
# Allocator — the destructor

`~Allocator` gives the spans of all central lists back and then destroys the page heap, whatever is
live, cached or held by a call at that moment.  A `Span` that does not exist can be neither read nor
deleted, so that the destructor is defined and leaves no span says that each is deleted once and
none is touched afterwards (`teardown`).
-/

namespace TieredAllocator
open Lib

/-- The pages the heap owns, if it has unmapped none. -/
theorem ownedBy_iff {q : Nat} {tr : List Syscall} (h : ∀ start n, Syscall.munmap start n ∉ tr) :
    ownedBy tr q = true ↔
      ∃ n start, Syscall.mmap n (some start) ∈ tr ∧ start ≤ q ∧ q < start + n := by
  induction tr with
  | nil => simp [ownedBy]
  | cons a tr ih =>
      have hih := ih fun start n hm => h start n (List.mem_cons_of_mem _ hm)
      cases a with
      | mmap n r =>
          cases r with
          | none => simpa [ownedBy] using hih
          | some start =>
              simp only [ownedBy, Bool.or_eq_true, Bool.and_eq_true, decide_eq_true_eq, hih,
                List.mem_cons, Syscall.mmap.injEq, Option.some.injEq]
              constructor
              · rintro (hq | ⟨n', start', hm, hq⟩)
                · exact ⟨n, start, .inl ⟨rfl, rfl⟩, hq⟩
                · exact ⟨n', start', .inr hm, hq⟩
              · rintro ⟨n', start', ⟨rfl, rfl⟩ | hm, hq⟩
                · exact .inl hq
                · exact .inr ⟨n', start', hm, hq⟩
      | munmap start n => exact absurd List.mem_cons_self (h start n)

variable {ι : Type} [Fintype ι]

namespace World

variable {w w' : World} {γ : ι → Option Held} {t : ι} {g : Held} {a : Action} {e : Env}

/-- An action makes one system call at most, and that is an `mmap`. -/
theorem Inv.perform_trace (hi : w.Inv γ) (hg : γ t = some g) (ha : Pre g a) {r : Answer a}
    (h : w.perform e a = some (r, w')) :
    w'.trace = w.trace ∨ ∃ n p, w'.trace = .mmap n p :: w.trace := by
  obtain ⟨L, S, hb⟩ := hi.backend
  have hsteady : ∀ {b' : Backend} {out out' : Nat → Multiset Nat},
      Backend.Steady w.allocator.backend b' out out' →
      b'.pageHeap.os.trace = w.trace ∨ ∃ n p, b'.pageHeap.os.trace = .mmap n p :: w.trace := by
    intro b' out out' hs
    rcases hs.os with hos | ⟨k, n, hos⟩
    · exact .inl (by rw [hos]; rfl)
    · exact .inr ⟨n, _, by rw [hos]; rfl⟩
  cases a with
  | slabPop sc | slabPush sc ptr | removeRange sc n | insertRange sc batch | spanFor ptr =>
      obtain ⟨rfl, rfl⟩ := Prod.mk.inj (Option.some.inj h)
      exact .inl rfl
  | spanSize s =>
      simp only [World.perform, Allocator.perform, Option.map_map, Option.map_eq_some_iff] at h
      obtain ⟨x, -, hx⟩ := h
      obtain ⟨-, rfl⟩ := Prod.mk.inj hx
      exact .inl rfl
  | centralAllocate sc =>
      obtain ⟨q, b', L', S', hq, -, -, -, hs, -⟩ :=
        Backend.allocate_spec hb (sizeClass_classOk sc) e.kernel
      simp only [World.perform, Allocator.perform, hq, Option.map_some, Option.some.injEq] at h
      obtain ⟨rfl, rfl⟩ := Prod.mk.inj h
      exact hsteady hs
  | centralDeallocate sc s ptr =>
      obtain ⟨x, b', L', S', -, -, hres, -, -, hs, -⟩ :=
        Backend.deallocateLocked_spec hb (mem_handed hg ha.1) ((hi.routed t g hg) ptr s ha.2).2
      simp only [World.perform, Allocator.perform, hres, Option.map_some, Option.some.injEq] at h
      obtain ⟨rfl, rfl⟩ := Prod.mk.inj h
      exact hsteady hs

end World

/-- The allocator in use unmaps nothing. -/
theorem trace_no_munmap [DecidableEq ι] {mem : Memory} {foreign : Nat → Bool}
    {slabPage slabCount : Nat} {ls : List (Step ι Call Env ClientWrite)} {u : Process ι}
    (r : (Process.system ι).Run (Process.init ι mem foreign slabPage slabCount) ls u)
    (start n : Nat) : Syscall.munmap start n ∉ u.state.trace := by
  refine (r.invariant (I := fun u => machine.Ok Pre Ans Done World.Inv u ∧
    Syscall.munmap start n ∉ u.state.trace) (fun {u l u'} hI ha h => ?_)
    ⟨Machine.ok_rest (World.Inv.init mem foreign slabPage slabCount), List.not_mem_nil⟩).2
  obtain ⟨hok, hnot⟩ := hI
  obtain ⟨v, hv, hok'⟩ := machine_sound.step hok ha
  obtain rfl := Option.some.inj (h.symm.trans hv)
  refine ⟨hok', ?_⟩
  have hsame : u'.state.trace = u.state.trace → Syscall.munmap start n ∉ u'.state.trace :=
    fun e => e ▸ hnot
  cases l with
  | start t c =>
      obtain ⟨-, g, w, hb, rfl⟩ := Machine.step_start h
      exact hsame (by rw [World.trace, World.begin_allocator hb]; rfl)
  | finish t =>
      obtain ⟨c, g, x, -, rfl⟩ := Machine.step_finish h
      refine hsame ?_
      show (World.finish u.state c x).trace = _
      rw [World.trace, World.finish_allocator]
      rfl
  | client y =>
      obtain ⟨w, hw, rfl⟩ := Option.map_eq_some_iff.mp
        (show (World.client u.state y).map (fun s => (⟨s, u.threads⟩ : Process ι)) = some u' from h)
      rw [World.client] at hw
      split at hw
      · obtain rfl := Option.some.inj hw
        exact hsame rfl
      · cases hw
  | act t e =>
      obtain ⟨c, g, a, p, x, w, ht, hx, rfl⟩ := Machine.step_act h
      have hg : Machine.ghosts u t = some g := by
        rw [Machine.ghosts, ht]
        rfl
      rcases hok.1.perform_trace hg (hok.2 t c g _ ht).1 hx with htr | ⟨k, q, htr⟩
      · exact hsame htr
      · show Syscall.munmap start n ∉ w.trace
        rw [htr]
        simpa using hnot

/-- **Teardown.**  In each state that any number of threads reach, the destructor of the allocator
is defined and leaves no span; the ranges it unmaps are pairwise disjoint, and together they are the
pages that the page heap has mapped. -/
theorem teardown [DecidableEq ι] {mem : Memory} {foreign : Nat → Bool}
    {slabPage slabCount : Nat} {ls : List (Step ι Call Env ClientWrite)} {u : Process ι}
    (r : (Process.system ι).Run (Process.init ι mem foreign slabPage slabCount) ls u) :
    ∃ a rs, u.state.allocator.destroy = some a ∧ (∀ s, a.backend.pageHeap.spans s = none) ∧
      a.backend.pageHeap.os.trace =
        PageHeap.unmaps rs ++ u.state.allocator.backend.pageHeap.os.trace ∧
      rs.Pairwise (fun r r' => r.1 + r.2 ≤ r'.1 ∨ r'.1 + r'.2 ≤ r.1) ∧
      ∀ q, (∃ r ∈ rs, r.1 ≤ q ∧ q < r.1 + r.2) ↔
        ∃ n start, Syscall.mmap n (some start) ∈ u.state.allocator.backend.pageHeap.os.trace ∧
          start ≤ q ∧ q < start + n := by
  obtain ⟨hi, -⟩ := ok_of_run r
  obtain ⟨L, S, hb⟩ := hi.backend
  obtain ⟨b, L', hres, hi', hos, hiff⟩ := Backend.destroyFreeLists_spec numSizeClasses hb.heap
    (fun c _ => ⟨(hb.list c).linked.forward, (hb.list c).nodup, fun s hs => by
      obtain ⟨x, hx, hsx⟩ := hb.used hs
      exact ⟨x, hx, hsx.used⟩⟩) hb.apart
  -- no span is in use any more, so each is on a free list
  have hall : ∀ s x, b.pageHeap.spans s = some x → ∃ j, s ∈ L' j := by
    intro s x hx
    cases hf : x.isFree with
    | true => exact ⟨_, hi'.complete s x hx not_false hf⟩
    | false =>
        obtain ⟨hnot, hx₀⟩ := (hiff s x hf).mp hx
        obtain ⟨c, hs⟩ := hb.complete s x hx₀ hf
        exact absurd hs (hnot c (hb.class_lt hs).2)
  obtain ⟨h, rs, hdestroy, hnone, hos', hdisj, hcover⟩ := PageHeap.destroy_all hi' hall
  refine ⟨{ u.state.allocator with backend := { b with pageHeap := h } }, rs, ?_, hnone, ?_, hdisj,
    fun q => ?_⟩
  · simp only [Allocator.destroy, hres, Option.bind_eq_bind, Option.bind_some, hdestroy]
  · show h.os.trace = _
    rw [hos', hos]
  · rw [hcover q, hos, Os.owned]
    exact ownedBy_iff (trace_no_munmap r)

/-- The process of `sampleSteps` is torn down while its block is live, and page 50 is unmapped. -/
theorem teardown_sample : ∃ (u : Process (Fin 2)) (a : Allocator) (rs : List (Nat × Nat)),
    (⟨196608, 20000⟩ : Block) ∈ u.state.live ∧ u.state.allocator.destroy = some a ∧
      (∀ s, a.backend.pageHeap.spans s = none) ∧ ∃ r ∈ rs, r.1 ≤ 50 ∧ 50 < r.1 + r.2 := by
  have h : (((Process.system (Fin 2)).replay
      (Process.init (Fin 2) Memory.zero (fun _ => false) 1000 1) sampleSteps).map fun u =>
        (decide ((⟨196608, 20000⟩ : Block) ∈ u.state.live),
          decide (Syscall.mmap 5 (some 48) ∈ u.state.allocator.backend.pageHeap.os.trace))) =
        some (true, true) := by
    decide +kernel
  obtain ⟨u, hu, heq⟩ := Option.map_eq_some_iff.mp h
  obtain ⟨hlive, htrace⟩ := Prod.mk.inj heq
  obtain ⟨a, rs, hres, hnone, -, -, hcover⟩ := teardown (System.Run.of_replay hu)
  exact ⟨u, a, rs, of_decide_eq_true hlive, hres, hnone,
    (hcover 50).mpr ⟨5, 48, of_decide_eq_true htrace, by omega, by omega⟩⟩

end TieredAllocator
