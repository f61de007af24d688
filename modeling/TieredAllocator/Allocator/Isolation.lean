import TieredAllocator.Allocator.Classes
import TieredAllocator.Allocator.Partition

/-!
# Allocator — isolation of the size classes

All classes share one page heap, one pointer array per CPU and one type of span.  Each action of a
call is on the class of the call (`Action.InClass`), and leaves of each other class everything as
it is (`World.SameClass`): the stacks in the slabs, the transfer cache, the central list with the
spans on it, the entries of their pages in the page map, and the bytes of these pages
(`World.Inv.isolated`).  So does each step of a call among any other threads, and the call as a
whole when it is made alone (`class_isolated`).
-/

namespace TieredAllocator
open Lib

namespace World

/-- Everything that belongs to the class `d` is the same in `w'` as in `w`. -/
structure SameClass (d : Nat) (w w' : World) : Prop where
  base : w'.allocator.perCpuCaches = w.allocator.perCpuCaches
  count : w'.allocator.slabCount = w.allocator.slabCount
  /-- the counts in the slabs -/
  currents : ∀ cpu < w.allocator.slabCount,
    Slabs.current w'.allocator.backend.mem (Slabs.getSlabs w.allocator.perCpuCaches cpu) d =
      Slabs.current w.allocator.backend.mem (Slabs.getSlabs w.allocator.perCpuCaches cpu) d
  /-- the pointers in the slabs -/
  pointers : ∀ cpu < w.allocator.slabCount, ∀ i < slabCapacity d,
    Slabs.pointer w'.allocator.backend.mem (Slabs.getSlabs w.allocator.perCpuCaches cpu)
        (slabOffset d + i) =
      Slabs.pointer w.allocator.backend.mem (Slabs.getSlabs w.allocator.perCpuCaches cpu)
        (slabOffset d + i)
  cache : w'.allocator.transferCaches d = w.allocator.transferCaches d
  list : w'.allocator.backend.freeList d = w.allocator.backend.freeList d
  /-- the spans on the list, with all their fields, their entries in the page map, and the bytes of
  their pages -/
  spans : ∀ l, SpanList w.allocator.backend.pageHeap.spans
      (w.allocator.backend.freeList d).spanList l → ∀ s ∈ l, ∃ x,
    w.allocator.backend.pageHeap.spans s = some x ∧
    w'.allocator.backend.pageHeap.spans s = some x ∧
    ∀ a, x.base ≤ a → a < x.base + x.numPages * pageSize →
      w'.allocator.backend.pageHeap.spanFor a = w.allocator.backend.pageHeap.spanFor a ∧
      w'.allocator.backend.mem.byte a = w.allocator.backend.mem.byte a

namespace SameClass

variable {w w' w'' : World} {d : Nat}

theorem trans (h : SameClass d w w') (h' : SameClass d w' w'') : SameClass d w w'' := by
  refine ⟨h'.base.trans h.base, h'.count.trans h.count, fun cpu hcpu => ?_,
    fun cpu hcpu i hi => ?_, h'.cache.trans h.cache, h'.list.trans h.list, fun l hl s hs => ?_⟩
  · rw [← h.currents cpu hcpu, ← h.base]
    exact h'.currents cpu (h.count ▸ hcpu)
  · rw [← h.pointers cpu hcpu i hi, ← h.base]
    exact h'.pointers cpu (h.count ▸ hcpu) i hi
  · -- the list is the same list in `w'`
    have hl' : SpanList w'.allocator.backend.pageHeap.spans
        (w'.allocator.backend.freeList d).spanList l := by
      rw [h.list]
      refine hl.congr fun t ht => ?_
      obtain ⟨x, hx, hx', -⟩ := h.spans l hl t ht
      rw [hx, hx']
    obtain ⟨x, hx, hx', hpages⟩ := h.spans l hl s hs
    obtain ⟨y, hy, hy', hpages'⟩ := h'.spans l hl' s hs
    obtain rfl := Option.some.inj (hx'.symm.trans hy)
    exact ⟨x, hx, hy', fun a h₁ h₂ => ⟨(hpages' a h₁ h₂).1.trans (hpages a h₁ h₂).1,
      (hpages' a h₁ h₂).2.trans (hpages a h₁ h₂).2⟩⟩

end SameClass

variable {ι : Type} [Fintype ι] {w w' : World} {γ : ι → Option Held} {t : ι} {g : Held}
  {a : Action} {e : Env} {c d : Nat}

namespace Inv

/-! ### The three kinds of change -/

/-- A step that leaves the memory and the backend. -/
theorem sameClass_of_eq (hback : w'.allocator.backend = w.allocator.backend)
    (hbase : w'.allocator.perCpuCaches = w.allocator.perCpuCaches)
    (hcount : w'.allocator.slabCount = w.allocator.slabCount)
    (hcache : w'.allocator.transferCaches d = w.allocator.transferCaches d) :
    SameClass d w w' := by
  refine ⟨hbase, hcount, fun _ _ => by rw [hback], fun _ _ _ _ => by rw [hback], hcache,
    by rw [hback], fun l hl s hs => ?_⟩
  obtain ⟨x, hx⟩ := hl.exist s hs
  exact ⟨x, hx, by rw [hback]; exact hx, fun _ _ _ => ⟨by rw [hback], by rw [hback]⟩⟩

/-- A store into a cell of another class. -/
theorem sameClass_of_cell (hi : w.Inv γ) {cpu : Nat} {m' : Memory}
    (hcpu : cpu < w.allocator.slabCount) (hc : c < numSizeClasses) (hd : d < numSizeClasses)
    (hdc : d ≠ c)
    (hw : Memory.Wrote (Slabs.Cell w.allocator.perCpuCaches cpu c) w.allocator.backend.mem m') :
    SameClass d w { w with allocator := w.allocator.setMem m' } := by
  have hload : ∀ cpu' b k, Slabs.Cell w.allocator.perCpuCaches cpu' d b k →
      m'.load b k = w.allocator.backend.mem.load b k := fun cpu' b k h' =>
    hw.load_eq fun _ _ h => (h.disjoint hc hd (.inr (Ne.symm hdc)) h').symm
  refine ⟨rfl, rfl, fun cpu' _ => hload cpu' _ _ (.inl ⟨rfl, rfl⟩),
    fun cpu' _ i hi => hload cpu' _ _ (.inr ⟨by omega, by omega⟩), rfl, rfl, fun l hl s hs => ?_⟩
  obtain ⟨x, hx⟩ := hl.exist s hs
  refine ⟨x, hx, hx, fun b h₁ h₂ => ⟨rfl, hi.cell_mem hcpu hc hw b ?_⟩⟩
  obtain ⟨L, S, hb⟩ := hi.backend
  rw [← hb.heap.owned, show w.allocator.backend.pageHeap.pageMap (b / pageSize) = some s from
    hb.heap.spanFor_page hx h₁ h₂]
  rfl

/-- A step of the central list of another class, which stores into objects of that class; `b₀` is
the state before the step or after it. -/
theorem sameClass_of_apart (hi : w.Inv γ) {b' b₀ : Backend} {L L' S L₀ S₀ : Nat → List SpanId}
    {out₀ : Nat → Multiset Nat} {o : Multiset Nat}
    (hb : Backend.Inv sizeClass w.allocator.backend (w.handed γ) L S)
    (hheap : PageHeap.Inv PageHeap.Rest b'.pageHeap L')
    (hapart : Backend.Apart w.allocator.backend b' S c) (hd : d < numSizeClasses) (hdc : d ≠ c)
    (hb₀ : Backend.Inv sizeClass b₀ out₀ L₀ S₀)
    (hforeign : b₀.pageHeap.os.foreign = w.allocator.backend.pageHeap.os.foreign)
    (hsound : ∀ q, b₀.pageHeap.os.owned q = true → b₀.pageHeap.os.foreign q = false)
    (hspans : ∀ s ∈ S d, s ∈ S₀ d ∧ b₀.pageHeap.spans s = w.allocator.backend.pageHeap.spans s)
    (hw : Memory.Wrote (Backend.FreeObject b₀ S₀ o c) w.allocator.backend.mem b'.mem) :
    SameClass d w { w with allocator := { w.allocator with backend := b' } } := by
  have hload : ∀ cpu < w.allocator.slabCount, ∀ b k,
      Slabs.Cell w.allocator.perCpuCaches cpu d b k →
      b'.mem.load b k = w.allocator.backend.mem.load b k := by
    intro cpu hcpu b k hcell
    obtain ⟨h₁, h₂⟩ := hcell.region hcpu hd
    exact Memory.load_congr k b fun a h₃ h₄ =>
      hi.region_byte hb₀ hforeign hsound hw (by omega) (by omega)
  refine ⟨rfl, rfl, fun cpu hcpu => hload cpu hcpu _ _ (.inl ⟨rfl, rfl⟩),
    fun cpu hcpu i hi => hload cpu hcpu _ _ (.inr ⟨by omega, by omega⟩), rfl, hapart.lists d hdc,
    fun l hl s hs => ?_⟩
  obtain rfl := hl.linked.unique (hb.list d).linked
  obtain ⟨x, hx⟩ := hl.exist s hs
  have hx' : b'.pageHeap.spans s = some x := (hapart.spans d s hdc hs).trans hx
  refine ⟨x, hx, hx', fun a h₁ h₂ => ⟨?_, hw.byte_eq fun e n hfree hin => ?_⟩⟩
  · rw [hb.heap.spanFor_page hx h₁ h₂]
    exact hheap.spanFor_page hx' h₁ h₂
  · -- the pages of `s` hold no object of a span of `c`
    obtain ⟨s', x', hs', hx', i, hix, -, h₅, h₆⟩ := hfree
    obtain ⟨hs₀, hx₀⟩ := hspans s hs
    have hpage := hb₀.heap.spanFor_page (hx₀.trans hx) h₁ h₂
    have hobj := hb₀.spanFor_eq hs' hx' hix (a := a) (by omega) (by omega)
    obtain rfl := Option.some.inj (hpage.symm.trans hobj)
    exact hdc (hb₀.apart d c s hs₀ hs')

/-! ### One action -/

/-- **One action** of a call on the class `c` leaves the other classes. -/
theorem isolated (hi : w.Inv γ) (hg : γ t = some g) (ha : Pre g a) (hc : a.InClass c)
    (hd : d < numSizeClasses) (hdc : d ≠ c) {r : Answer a} (h : w.perform e a = some (r, w')) :
    SameClass d w w' := by
  obtain ⟨L, S, hb⟩ := hi.backend
  cases a with
  | slabPop sc =>
      obtain rfl : sc = c := hc
      rcases Slabs.slabPop_spec hi.bounded ha e.cpu with hres | ⟨q, m', hres, hcpu, -, -, hw⟩
      · simp only [World.perform, Allocator.perform, hres, Option.map_some, Option.some.injEq] at h
        obtain ⟨rfl, rfl⟩ := Prod.mk.inj h
        exact sameClass_of_eq rfl rfl rfl rfl
      · simp only [World.perform, Allocator.perform, hres, Option.map_some, Option.some.injEq] at h
        obtain ⟨rfl, rfl⟩ := Prod.mk.inj h
        exact hi.sameClass_of_cell hcpu ha hd hdc hw
  | slabPush sc ptr =>
      obtain rfl : sc = c := hc
      have hlt := (hi.range (mem_handed hg ha.2)).2.2.2
      rcases Slabs.slabPush_spec hi.bounded ha.1 hlt e.cpu with hres | ⟨m', hres, hcpu, -, -, hw⟩
      · simp only [World.perform, Allocator.perform, hres, Option.map_some, Option.some.injEq] at h
        obtain ⟨rfl, rfl⟩ := Prod.mk.inj h
        exact sameClass_of_eq rfl rfl rfl rfl
      · simp only [World.perform, Allocator.perform, hres, Option.map_some, Option.some.injEq] at h
        obtain ⟨rfl, rfl⟩ := Prod.mk.inj h
        exact hi.sameClass_of_cell hcpu ha.1 hd hdc hw
  | removeRange sc n | insertRange sc batch =>
      obtain rfl : sc = c := hc
      obtain ⟨rfl, rfl⟩ := Prod.mk.inj (Option.some.inj h)
      exact sameClass_of_eq rfl rfl rfl (Function.update_of_ne hdc _ _)
  | spanFor ptr =>
      obtain ⟨rfl, rfl⟩ := Prod.mk.inj (Option.some.inj h)
      exact sameClass_of_eq rfl rfl rfl rfl
  | spanSize s =>
      simp only [World.perform, Allocator.perform, Option.map_map, Option.map_eq_some_iff] at h
      obtain ⟨x, -, hx⟩ := h
      obtain ⟨-, rfl⟩ := Prod.mk.inj hx
      exact sameClass_of_eq rfl rfl rfl rfl
  | centralAllocate sc =>
      obtain rfl : sc = c := hc
      obtain ⟨q, b', L', S', hres, hb', hsteady, hal⟩ :=
        Backend.allocate_cases hb (sizeClass_classOk sc) e.kernel
      obtain ⟨hforeign, hsound⟩ := hsteady.os_sound hi.sound
      have hapart := hal.apart hb hb'
      have hS := hal.lists_eq hdc
      have hw := hal.wrote
      simp only [World.perform, Allocator.perform, hres, Option.map_some, Option.some.injEq] at h
      obtain ⟨rfl, rfl⟩ := Prod.mk.inj h
      exact hi.sameClass_of_apart hb hb'.heap hapart hd hdc hb' hforeign hsound
        (fun s hs => ⟨hS.symm ▸ hs, hapart.spans d s hdc hs⟩) hw
  | centralDeallocate sc s ptr =>
      obtain rfl : sc = c := hc
      have hout := mem_handed (w := w) hg ha.1
      obtain ⟨x, b', L', S', -, -, hres, hb', hw, -, -, hapart⟩ :=
        Backend.deallocateLocked_spec hb hout ((hi.routed t g hg) ptr s ha.2).2
      simp only [World.perform, Allocator.perform, hres, Option.map_some, Option.some.injEq] at h
      obtain ⟨rfl, rfl⟩ := Prod.mk.inj h
      exact hi.sameClass_of_apart hb hb'.heap hapart hd hdc hb rfl hi.sound
        (fun s hs => ⟨hs, rfl⟩) hw

end Inv

/-! ### Calls -/

/-- The class a call is about: that of the size asked for, or of the live block given back. -/
def CallClass (w : World) : Call → Nat → Prop
  | .allocate n, c => c = (roundSizeClass n).2
  | .deallocate p, c => ∃ b, (w.live.find? fun b => b.ptr = p) = some b ∧ c = b.sc

/-- A call keeps to its class. -/
theorem Inv.call_inClass (hi : w.Inv γ) {x : Call} (hx : w.CallClass x c)
    (h : w.begin x = some (g, w')) : x.program.wp (rulesIn c) (Done x) g := by
  cases x with
  | allocate n =>
      obtain rfl := hx
      obtain ⟨rfl, -⟩ := Prod.mk.inj (Option.some.inj h)
      exact allocate_inClass n
  | deallocate p =>
      obtain ⟨b, hb, rfl⟩ := hx
      simp only [World.begin, hb, Option.map_some, Option.some.injEq] at h
      obtain ⟨rfl, -⟩ := Prod.mk.inj h
      have hmem := List.mem_of_find?_eq_some hb
      obtain rfl : b.ptr = p := by simpa using List.find?_some hb
      exact Program.deallocate_inClass (hi.range (live_handed hmem)).2.2.1

omit [Fintype ι] in
/-- A call of a known class may begin. -/
theorem CallClass.begin {x : Call} (hx : w.CallClass x c) : ∃ g w', w.begin x = some (g, w') := by
  cases x with
  | allocate n => exact ⟨_, _, rfl⟩
  | deallocate p =>
      obtain ⟨b, hb, -⟩ := hx
      exact ⟨_, _, by simp only [World.begin, hb]; rfl⟩

omit [Fintype ι] in
/-- The beginning and the end of a call do not concern the allocator. -/
theorem begin_allocator {x : Call} (h : w.begin x = some (g, w')) : w'.allocator = w.allocator := by
  cases x with
  | allocate n =>
      obtain ⟨-, rfl⟩ := Prod.mk.inj (Option.some.inj h)
      rfl
  | deallocate p =>
      obtain ⟨b, -, hw⟩ := Option.map_eq_some_iff.mp h
      obtain ⟨-, rfl⟩ := Prod.mk.inj hw
      rfl

omit [Fintype ι] in
theorem finish_allocator (x : Call) (v : Result x) : (w.finish x v).allocator = w.allocator := by
  cases x with
  | allocate n =>
      rw [World.finish]
      split <;> rfl
  | deallocate p => rfl

theorem sameClass_of_allocator (h : w'.allocator = w.allocator) (d : Nat) : SameClass d w w' :=
  Inv.sameClass_of_eq (by rw [h]) (by rw [h]) (by rw [h]) (by rw [h])

end World

variable {ι : Type} [Fintype ι] [DecidableEq ι]

/-- **Isolation of the size classes.**  In each state that any number of threads reach, for a call
of an idle thread on the class `c` and any other class `d`: the call made alone, on any CPUs and
with any answers of the kernel, leaves everything of `d`; and made among the steps of the other
threads, each of its own steps does. -/
theorem class_isolated {mem : Memory} {foreign : Nat → Bool} {slabPage slabCount : Nat}
    {ls : List (Step ι Call Env ClientWrite)} {u : Process ι}
    (r : (Process.system ι).Run (Process.init ι mem foreign slabPage slabCount) ls u) {t : ι}
    (ht : u.threads t = .idle) {x : Call} {c d : Nat} (hx : u.state.CallClass x c)
    (hd : d < numSizeClasses) (hdc : d ≠ c) :
    (∀ env, ∃ v w, machine.alone env u.state x = some (v, w) ∧ u.state.SameClass d w) ∧
    ∀ u₁, (Process.system ι).step u (.start t x) = some u₁ → u.state.SameClass d u₁.state ∧
      ∀ ls' v v' l, (Process.system ι).Run u₁ ls' v → (∀ y, Step.start t y ∉ ls') →
        (Process.system ι).step v l = some v' → (l = .finish t ∨ ∃ e, l = .act t e) →
          v.state.SameClass d v'.state := by
  have hok := ok_of_run r
  have hidle : Machine.ghosts u t = none := by
    rw [Machine.ghosts, ht]
    rfl
  obtain ⟨g, w₁, hbegin⟩ := hx.begin
  have hwp := hok.1.call_inClass hx hbegin
  have hsame₁ := World.sameClass_of_allocator (World.begin_allocator hbegin) d
  refine ⟨fun env => ?_, fun u₁ hstart => ?_⟩
  · -- alone: the other class is the same after each action
    obtain ⟨v, w, g', hexec, ⟨-, hsame⟩, -⟩ := Prog.exec_spec
      (J := fun w g => w.Inv (Function.update (Machine.ghosts u) t (some g)) ∧
        u.state.SameClass d w)
      (fun {w g a} e h ha => by
        have hgt : Function.update (Machine.ghosts u) t (some g) t = some g :=
          Function.update_self ..
        obtain ⟨r, w', hr, hans, hw'⟩ := h.1.perform hgt ha.1 e
        exact ⟨r, w', hr, hans, by simpa using hw',
          h.2.trans (h.1.isolated hgt ha.1 ha.2 hd hdc hr)⟩)
      hwp ⟨(hok.1.begin hidle hbegin).1, hsame₁⟩ env
    refine ⟨v, w.finish x v, ?_, hsame.trans (World.sameClass_of_allocator
      (World.finish_allocator x v) d)⟩
    show Option.bind (World.begin u.state x) _ = _
    rw [hbegin]
    show Option.map _ (Prog.exec World.perform (Call.program x) env w₁) = _
    rw [hexec]
    rfl
  · obtain ⟨-, g', w', hb', rfl⟩ := Machine.step_start hstart
    obtain ⟨rfl, rfl⟩ := Prod.mk.inj (Option.some.inj (hb'.symm.trans hbegin))
    refine ⟨hsame₁, fun ls' v v' l r' hls hstep hl => ?_⟩
    have hallowed : (Process.system ι).allowed u (.start t x) := by
      show Machine.enabled machine u (.start t x) = true
      rw [Machine.enabled, ht]
      show (World.begin u.state x).isSome = true
      rw [hbegin]
      rfl
    have hrun := machine_sound.run (.one hallowed hstart) hok
    obtain ⟨hokv, hrules⟩ := machine_sound.run_rules (φ := fun g a => Pre g a ∧ a.InClass c)
      (fun _ _ h => h.1) r' hrun hls fun y g'' p hp => by
        have hrest : Function.update u.threads t (.busy x g' x.program) t = .busy y g'' p := hp
        rw [Function.update_self] at hrest
        cases hrest
        exact hwp
    rcases hl with rfl | ⟨e, rfl⟩
    · obtain ⟨y, g'', z, -, rfl⟩ := Machine.step_finish hstep
      exact World.sameClass_of_allocator (World.finish_allocator y z) d
    · obtain ⟨y, g'', a, k, z, w, hbusy, hres, rfl⟩ := Machine.step_act hstep
      obtain ⟨ha, -⟩ := hrules y g'' _ hbusy
      exact hokv.1.isolated (t := t) (by rw [Machine.ghosts, hbusy]; rfl) ha.1 ha.2 hd hdc hres

/-- A request of 100 bytes leaves the class of 20480 bytes, which has a live block, cached objects
and three spans. -/
theorem class_isolated_sample : ∃ u v w, (Process.system (Fin 2)).Run
    (Process.init (Fin 2) Memory.zero (fun _ => false) 1000 1) sampleSteps u ∧
      u.state.live = [⟨196608, 20000⟩] ∧
      machine.alone (fun _ => ⟨0, fun _ => some 80⟩) u.state (.allocate 100) = some (v, w) ∧
      u.state.SameClass 34 w := by
  obtain ⟨u, -, r, hlive, hidle, -⟩ := sampleSteps_run
  obtain ⟨v, w, hres, hsame⟩ := (class_isolated r hidle (x := .allocate 100) rfl
    (show 34 < numSizeClasses by decide) (by decide)).1 fun _ => ⟨0, fun _ => some 80⟩
  exact ⟨u, v, w, r, hlive, hres, hsame⟩

end TieredAllocator
