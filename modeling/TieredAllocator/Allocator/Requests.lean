import TieredAllocator.Allocator.Classes
import TieredAllocator.Allocator.Partition
import TieredAllocator.CentralFreeList.Release
import TieredAllocator.CentralFreeList.Supply

/-!
# Allocator — requests

When `allocate` returns a block, made alone in any state the threads reach.  It returns null only
after a central list has had nothing; that list had asked the kernel in vain, or its spans hold no
object.  The latter is so for the classes whose objects are larger than their spans: `SizeClasses`
counts pages of 8 KB, `PAGE_SIZE` is 4 KB.  So with a kernel that gives memory the requests that
succeed are those of `Fits` (`allocate_nonnull_iff`), and one of 8192 bytes fails
(`allocate_fails`).

A call that returns null has changed nothing, unless it has linked a span that holds no object
(`failed_allocate_iff`).
-/

namespace TieredAllocator
open Lib

/-! ### Which classes have objects -/

/-- A size whose class has spans that hold an object. -/
def Fits (n : Nat) : Prop := n ≤ 6144 ∨ (8192 < n ∧ n ≤ 12288) ∨ (16384 < n ∧ n ≤ 28672)

theorem roundSizeClass_le_iff {n b : Nat} (hn : n ≤ maxSize) (h₁ : 1 ≤ b)
    (hb : b < numSizeClasses) : (roundSizeClass n).2 ≤ b ↔ n ≤ (sizeClass b).size := by
  obtain ⟨-, -, -, hle, hlt⟩ := roundSizeClass_spec hn
  constructor
  · intro h
    rcases Nat.lt_or_eq_of_le h with h | h
    · exact hle.trans (sizeClass_size_lt h hb).le
    · rwa [← h]
  · intro h
    by_contra hgt
    have := hlt b h₁ (not_le.mp hgt)
    omega

theorem fits_iff {n : Nat} (hn : n ≤ maxSize) :
    Fits n ↔ 0 < spanObjects (sizeClass (roundSizeClass n).2) := by
  obtain ⟨-, h₁, h₂, -, -⟩ := roundSizeClass_spec hn
  have h : ∀ c < numSizeClasses, 1 ≤ c → (0 < spanObjects (sizeClass c) ↔
      c ≤ 29 ∨ (¬ c ≤ 30 ∧ c ≤ 32) ∨ (¬ c ≤ 33 ∧ c ≤ 35)) := by decide +kernel
  rw [h _ h₂ h₁, roundSizeClass_le_iff hn (by decide) (by decide),
    roundSizeClass_le_iff hn (by decide) (by decide),
    roundSizeClass_le_iff hn (by decide) (by decide),
    roundSizeClass_le_iff hn (by decide) (by decide),
    roundSizeClass_le_iff hn (by decide) (by decide)]
  show _ ↔ n ≤ 6144 ∨ (¬ n ≤ 8192 ∧ n ≤ 12288) ∨ (¬ n ≤ 16384 ∧ n ≤ 28672)
  rw [Fits, not_le, not_le]

variable {ι : Type} [Fintype ι]

namespace World

def trace (w : World) : List Syscall := w.allocator.backend.pageHeap.os.trace

namespace Inv

variable {w w' : World} {γ : ι → Option Held} {t : ι} {g : Held} {a : Action} {e : Env} {c p : Nat}

/-- A class without objects has none outside its spans. -/
theorem spanObjects_pos (hi : w.Inv γ) (hp : p ∈ w.handed γ c) :
    0 < spanObjects (sizeClass c) := by
  obtain ⟨L, S, hb⟩ := hi.backend
  obtain ⟨s, x, i, hs, hx, hix, -⟩ := hb.handed c p hp
  have hsx := hb.serves c s x hs hx
  have := hsx.total
  rw [hsx.pages_eq, hsx.size_eq] at this
  rw [spanObjects, ← this]
  omega

/-- What an action asks of the kernel: a central list of a class with objects that has nothing
for the call has asked in vain. -/
theorem asked (hi : w.Inv γ) (hg : γ t = some g) (ha : Pre g a) (hc : a.InClass c)
    {r : Answer a} (h : w.perform e a = some (r, w')) :
    ∃ new, w'.trace = new ++ w.trace ∧ (0 < spanObjects (sizeClass c) →
      (g.track a r).starved = true → g.starved = true ∨ ∃ n, Syscall.mmap n none ∈ new) := by
  obtain ⟨L, S, hback⟩ := hi.backend
  cases a with
  | slabPop sc =>
      obtain ⟨rfl, rfl⟩ := Prod.mk.inj (Option.some.inj h)
      refine ⟨[], rfl, fun _ hs => .inl ?_⟩
      rw [Held.track] at hs
      split at hs <;> exact hs
  | slabPush sc ptr =>
      obtain ⟨rfl, rfl⟩ := Prod.mk.inj (Option.some.inj h)
      refine ⟨[], rfl, fun _ hs => .inl ?_⟩
      rw [Held.track] at hs
      split at hs <;> exact hs
  | removeRange sc n | insertRange sc batch | spanFor ptr =>
      obtain ⟨rfl, rfl⟩ := Prod.mk.inj (Option.some.inj h)
      exact ⟨[], rfl, fun _ => .inl⟩
  | spanSize s =>
      simp only [World.perform, Allocator.perform, Option.map_map, Option.map_eq_some_iff] at h
      obtain ⟨x, -, hx⟩ := h
      obtain ⟨-, rfl⟩ := Prod.mk.inj hx
      exact ⟨[], rfl, fun _ => .inl⟩
  | centralAllocate sc =>
      obtain rfl : sc = c := hc
      obtain ⟨q, b', L', S', hq, -, -, -, hsteady, -, -, hnone⟩ :=
        Backend.allocate_spec hback (sizeClass_classOk sc) e.kernel
      simp only [World.perform, Allocator.perform, hq, Option.map_some, Option.some.injEq] at h
      obtain ⟨rfl, rfl⟩ := Prod.mk.inj h
      have hpages : (sizeClass sc).pages ≤ maxPages := by
        by_cases hsc : sc < numSizeClasses
        · have hall : ∀ d < numSizeClasses, (sizeClass d).pages ≤ maxPages := by decide +kernel
          exact hall sc hsc
        · rw [sizeClass, List.getD_eq_getElem?_getD, List.getElem?_eq_none (not_lt.mp hsc)]
          exact Nat.zero_le _
      by_cases hq0 : q = 0
      · subst hq0
        obtain ⟨new, hnew⟩ := hsteady.trace
        refine ⟨new, hnew, fun hpos _ => .inr ?_⟩
        rcases hnone rfl with h0 | h0 | htr
        · exact absurd h0 (Nat.pos_iff_ne_zero.mp hpos)
        · omega
        · refine ⟨(sizeClass sc).pages, ?_⟩
          have : new = [Syscall.mmap (sizeClass sc).pages none] :=
            List.append_cancel_right (hnew.symm.trans htr)
          rw [this]
          exact List.mem_singleton.mpr rfl
      · obtain ⟨new, hnew⟩ := hsteady.trace
        refine ⟨new, hnew, fun _ hs => .inl ?_⟩
        rwa [Held.track, if_neg hq0] at hs
  | centralDeallocate sc s ptr =>
      obtain ⟨x, b', L', S', -, -, hres, -, -, hsteady, -⟩ :=
        Backend.deallocateLocked_spec hback (mem_handed hg ha.1) ((hi.routed t g hg) ptr s ha.2).2
      simp only [World.perform, Allocator.perform, hres, Option.map_some, Option.some.injEq] at h
      obtain ⟨rfl, rfl⟩ := Prod.mk.inj h
      obtain ⟨new, hnew⟩ := hsteady.trace
      exact ⟨new, hnew, fun _ => .inl⟩

end Inv

end World

/-! ### Success -/

/-- During a call of `t` on class `c` that began in `w₀`: the invariant, and if the central list
of a class with objects has had nothing for the call, an `mmap` has failed since. -/
def World.Calling [DecidableEq ι] (w₀ : World) (γ : ι → Option Held) (t : ι) (c : Nat)
    (w : World) (g : Held) : Prop :=
  w.Inv (Function.update γ t (some g)) ∧ ∃ new, w.trace = new ++ w₀.trace ∧
    (0 < spanObjects (sizeClass c) → g.starved = true → ∃ k, Syscall.mmap k none ∈ new)

theorem World.Calling.perform [DecidableEq ι] {w₀ w : World} {γ : ι → Option Held} {t : ι}
    {c : Nat} {g : Held} {a : Action} (e : Env) (h : World.Calling w₀ γ t c w g)
    (ha : Pre g a ∧ a.InClass c) : ∃ r w', w.perform e a = some (r, w') ∧ Ans g a r ∧
      World.Calling w₀ γ t c w' (g.track a r) := by
  obtain ⟨hw, new, hnew, hst⟩ := h
  obtain ⟨hpre, hcl⟩ := ha
  have hgt : Function.update γ t (some g) t = some g := Function.update_self ..
  obtain ⟨r, w', hr, hans, hw'⟩ := hw.perform hgt hpre e
  obtain ⟨more, hmore, hstarved⟩ := hw.asked hgt hpre hcl hr
  refine ⟨r, w', hr, hans, by simpa using hw', more ++ new, ?_, fun hpos hs => ?_⟩
  · rw [hmore, hnew, List.append_assoc]
  · rcases hstarved hpos hs with h | ⟨k, h⟩
    · obtain ⟨k, h⟩ := hst hpos h
      exact ⟨k, List.mem_append_right _ h⟩
    · exact ⟨k, List.mem_append_left _ h⟩

/-- **Which requests succeed.**  In each state that any number of threads reach, `allocate(n)`
called by an idle thread returns, on any CPUs and with any answers of the kernel, and if no `mmap`
of the call has failed, it returns a block exactly when the class of `n` has objects. -/
theorem allocate_nonnull_iff [DecidableEq ι] {mem : Memory} {foreign : Nat → Bool}
    {slabPage slabCount : Nat} {ls : List (Step ι Call Env ClientWrite)} {u : Process ι}
    (r : (Process.system ι).Run (Process.init ι mem foreign slabPage slabCount) ls u) {t : ι}
    (ht : u.threads t = .idle) (env : Nat → Env) {n : Nat} (hn : n ≤ maxSize) :
    ∃ (v : Nat) (w : World) (new : List Syscall),
      machine.alone env u.state (.allocate n) = some (v, w) ∧ w.trace = new ++ u.state.trace ∧
        ((∀ k, Syscall.mmap k none ∉ new) → (v ≠ 0 ↔ Fits n)) := by
  obtain ⟨hi, -⟩ := ok_of_run r
  have hidle : Machine.ghosts u t = none := by
    rw [Machine.ghosts, ht]
    rfl
  set γ := Machine.ghosts u
  set c := (roundSizeClass n).2
  have hbegin := hi.begin (x := .allocate n) hidle rfl
  obtain ⟨v, w, g, hexec, ⟨hw, new, hnew, hst⟩, hdone⟩ := Prog.exec_spec
    (J := World.Calling u.state γ t c) World.Calling.perform (allocate_inClass n)
    ⟨hbegin.1, [], rfl, fun _ h => by cases h⟩ env
  refine ⟨v, w.finish (.allocate n) v, new, ?_, ?_, fun hok => ?_⟩
  · show Option.map _ (Prog.exec World.perform (Program.allocate n) env u.state) = _
    rw [hexec]
    rfl
  · rw [World.finish]
    split <;> exact hnew
  · rw [fits_iff hn]
    rcases hdone with ⟨rfl, -, hwhy⟩ | ⟨hv, -, hobjs⟩
    · refine iff_of_false (fun h => h rfl) fun hpos => ?_
      obtain ⟨k, hk⟩ := hst hpos (hwhy.resolve_right (not_lt.mpr hn))
      exact hok k hk
    · refine iff_of_true hv (hw.spanObjects_pos (p := v) (World.Inv.mem_handed (t := t) (g := g)
        (Function.update_self ..) ?_))
      rw [hobjs]
      simp [inClass]

/-- One request of 8192 bytes: the kernel gives the page asked for, and the call returns null. -/
theorem allocate_fails :
    (machine.alone (fun _ => ⟨0, fun _ => some 16⟩)
      (World.init Memory.zero (fun _ => false) 1000 1) (.allocate 8192)).map
        (fun r => (r.1, r.2.trace)) = some ((0 : Nat), [Syscall.mmap 1 (some 16)]) := by
  decide +kernel

/-- A request of 28000 bytes after the run of `sampleSteps`: the kernel gives both spans of the
batch, and a block is returned. -/
theorem allocate_nonnull_sample : ∃ (u : Process (Fin 2)) (v : Nat) (w : World),
    (Process.system (Fin 2)).Run (Process.init (Fin 2) Memory.zero (fun _ => false) 1000 1)
      sampleSteps u ∧
    machine.alone (fun _ => ⟨0, fun i => some (16 * i + 16)⟩) u.state (.allocate 28000) =
      some (v, w) ∧ v ≠ 0 := by
  obtain ⟨u, -, r, -, hidle, -⟩ := sampleSteps_run
  obtain ⟨v, w, new, hres, htrace, hnonnull⟩ := allocate_nonnull_iff r hidle
    (fun _ => ⟨0, fun i => some (16 * i + 16)⟩) (show 28000 ≤ maxSize by decide)
  have h : ((Process.system (Fin 2)).replay
      (Process.init (Fin 2) Memory.zero (fun _ => false) 1000 1) sampleSteps).bind (fun u =>
        (machine.alone (fun _ => ⟨0, fun i => some (16 * i + 16)⟩) u.state
          (.allocate 28000)).map fun r => r.2.trace) =
      some [.mmap 7 (some 80), .mmap 7 (some 64), .mmap 5 (some 48), .mmap 5 (some 32),
        .mmap 5 (some 16)] := by
    decide +kernel
  rw [r.replay_eq, Option.bind_some, hres, Option.map_some, Option.some.injEq] at h
  refine ⟨u, v, w, r, hres, (hnonnull fun k hk => ?_).mpr (.inr (.inr (by decide)))⟩
  have hmem : Syscall.mmap k none ∈ w.trace := htrace ▸ List.mem_append_left _ hk
  rw [h] at hmem
  simp at hmem

/-! ### Failure -/

/-- The tiers are the same, the cached spans and the system calls made aside. -/
structure World.SameTiers (w w' : World) : Prop where
  spans : w'.allocator.backend.pageHeap.spans = w.allocator.backend.pageHeap.spans
  freeLists : w'.allocator.backend.pageHeap.freeLists = w.allocator.backend.pageHeap.freeLists
  pageMap : w'.allocator.backend.pageHeap.pageMap = w.allocator.backend.pageHeap.pageMap
  lists : ∀ d, { w'.allocator.backend.freeList d with currentSpan := none } =
    { w.allocator.backend.freeList d with currentSpan := none }
  mem : w'.allocator.backend.mem = w.allocator.backend.mem
  transferCaches : w'.allocator.transferCaches = w.allocator.transferCaches
  perCpuCaches : w'.allocator.perCpuCaches = w.allocator.perCpuCaches
  slabCount : w'.allocator.slabCount = w.allocator.slabCount
  live : w'.live = w.live

/-- A central list that has nothing has changed nothing, unless its spans hold no object and the
page heap can give one. -/
theorem Backend.Allocates.sameTiers_iff {w : World} {b' : Backend} {out : Nat → Multiset Nat}
    {L S S' : Nat → List SpanId} {c p : Nat} {k : Kernel}
    (hb : Backend.Inv sizeClass w.allocator.backend out L S)
    (h : Backend.Allocates (sizeClass c) k w.allocator.backend c (out c) S p b' S') (hp : p = 0)
    (h₁ : 1 ≤ c) (h₂ : c < numSizeClasses) :
    w.SameTiers { w with allocator := { w.allocator with backend := b' } } ↔
      0 < spanObjects (sizeClass c) ∨
        ¬ w.allocator.backend.pageHeap.Supplies k (sizeClass c).pages := by
  obtain ⟨hsize, hmax, hpages, hsmall, -, -⟩ := sizeClass_ok h₁ h₂
  cases h with
  | took _ _ _ _ _ _ hne _ _ _ => exact absurd hp hne
  | @barren s y h' hex hal hy h0 =>
      obtain ⟨-, -, -, -, -, -, hnew⟩ := hal.2.some hb.heap
      refine iff_of_false (fun hsame => ?_) ?_
      · -- the new span is the first of its list, where it was not before
        have hhead := congrArg CentralFreeList.spanList (hsame.lists c)
        simp only [linked, setList, Function.update_self] at hhead
        exact hb.fresh hnew c ((hb.list c).head_mem hhead.symm)
      · rintro (hpos | hno)
        · exact absurd h0 (Nat.pos_iff_ne_zero.mp hpos)
        · refine hno ?_
          cases hal.2 with
          | reused _ _ hx hf hfit _ _ _ _ => exact .inl ⟨s, _, hx, hf, hfit.1⟩
          | mapped _ hm _ _ _ _ => exact .inr (by rw [hm]; simp)
  | @missing h' hex hwhy =>
      have hal : PageHeap.Allocated k w.allocator.backend.pageHeap (sizeClass c).pages
          (sizeClass c).size none h' := (hwhy.resolve_left fun h => by omega).2
      obtain ⟨hspans, -, hlists, hmap⟩ := hal.none
      refine iff_of_true ⟨hspans, hlists, hmap, fun d => ?_, rfl, rfl, rfl, rfl, rfl⟩ (.inr ?_)
      · by_cases hd : d = c
        · subst hd
          simp [cached, setList]
        · simp [cached, setList, hd]
      · cases hal with
        | rejected h =>
            simp only [maxPages] at h
            omega
        | failed hno hm _ =>
            rintro (⟨s, x, hx, hf, hle⟩ | hsome)
            · have := hno (by simp only [maxSize, PageHeap.uint32Max] at *; omega) s x hx hf
              omega
            · exact hsome hm

/-- A slab of no use has not been changed. -/
theorem perform_slabPop_zero {w w' : World} {γ : ι → Option Held} (hi : w.Inv γ) {e : Env} {c : Nat}
    (hc : c < numSizeClasses) (h : w.perform e (.slabPop c) = some ((0 : Nat), w')) : w' = w := by
  rcases Slabs.slabPop_spec hi.bounded hc e.cpu with hres | ⟨q, m', hres, -, -, hobjs, -⟩
  · simp only [World.perform, Allocator.perform, hres, Option.map_some, Option.some.injEq] at h
    exact (Prod.mk.inj h).2.symm
  · simp only [World.perform, Allocator.perform, hres, Option.map_some, Option.some.injEq] at h
    obtain rfl : q = 0 := (Prod.mk.inj h).1
    refine absurd rfl (hi.range (c := c) (p := 0) ?_).2.2.1
    have : (0 : Nat) ∈ slabObjects w.allocator c := by
      rw [slabObjects, hobjs]
      simp [inClass]
    simp only [World.handed, Pi.add_apply, Multiset.mem_add]
    exact .inl (.inr this)

/-- The end of `allocate` with a batch that is not empty. -/
theorem returns_ne_zero {c : Nat} {ps : List Nat} (hne : ∀ p ∈ ps, p ≠ 0) (h0 : ps.length ≠ 0) :
    (if ps.length = 0 then pure 0 else do
      Program.republish c ps (ps.length - 1)
      pure (ps.getD (ps.length - 1) 0) : Program Nat).Returns fun p => p ≠ 0 := by
  rw [if_neg h0]
  refine (Prog.returns_true _).bind fun _ _ => hne _ ?_
  rw [List.getD_eq_getElem?_getD,
    List.getElem?_eq_getElem (show ps.length - 1 < ps.length by omega)]
  exact List.getElem_mem _

theorem allocateBatch_returns (c count : Nat) :
    (Program.allocateBatch c count).Returns fun ps => ∀ p ∈ ps, p ≠ 0 := by
  induction count with
  | zero => exact fun p hp => absurd hp List.not_mem_nil
  | succ count ih =>
      intro p
      show Prog.Returns _ (if p = 0 then _ else _)
      by_cases hp : p = 0
      · rw [if_pos hp]
        exact fun q hq => absurd hq List.not_mem_nil
      · rw [if_neg hp]
        refine ih.bind fun ps hps q hq => ?_
        rcases List.mem_cons.mp hq with rfl | hq
        · exact hp
        · exact hps q hq

/-- A call that returns null has done three actions at most, none of which has changed anything
but the last, on the central list. -/
theorem exec_allocate_null {w w' : World} {γ : ι → Option Held} (hi : w.Inv γ) {env : Nat → Env}
    {n : Nat} (hn : n ≤ maxSize)
    (h : (Program.allocate n).exec World.perform env w = some ((0 : Nat), w')) :
    ∃ b', w.allocator.backend.allocate (env 2).kernel (roundSizeClass n).2 = some (0, b') ∧
      w' = { w with allocator := { w.allocator with backend := b' } } := by
  obtain ⟨hsc, h₁, h₂, -, -⟩ := roundSizeClass_spec hn
  obtain ⟨hsize, -, -, -, hbatch, -⟩ := sizeClass_ok h₁ h₂
  have hne : (roundSizeClass n).1.size ≠ 0 := by rw [hsc]; omega
  simp only [Program.allocate, if_neg hne] at h
  -- the slab
  rw [Program.slabPop, Prog.exec_perform_bind, Option.bind_eq_some_iff] at h
  obtain ⟨⟨p, w₁⟩, hpop, h⟩ := h
  by_cases hp : p = (0 : Nat)
  swap
  · rw [if_pos hp, Prog.pure_eq, Prog.exec_done, Option.some.injEq, Prod.mk.injEq] at h
    exact absurd h.1 hp
  subst hp
  obtain rfl := perform_slabPop_zero hi h₂ hpop
  rw [if_neg (not_not.mpr rfl)] at h
  -- the transfer cache
  rw [Program.refillBatch, Program.removeRange, bind_assoc, Prog.exec_perform_bind,
    Option.bind_eq_some_iff] at h
  obtain ⟨⟨batch, w₂⟩, hremove, h⟩ := h
  obtain ⟨hslots, hw₂⟩ := Prod.mk.inj (Option.some.inj hremove)
  dsimp only at hslots hw₂ h
  by_cases h0 : batch.length = 0
  swap
  · rw [if_neg h0, Prog.pure_eq, Prog.done_bind] at h
    refine absurd rfl ((returns_ne_zero (fun q hq => ?_) h0).exec h)
    refine (hi.range (c := (roundSizeClass n).2) ?_).2.2.1
    have hsplit := transferObjects_removeRange w₁.allocator (roundSizeClass n).2
      (roundSizeClass n).1.batchSize
    rw [hslots] at hsplit
    simp only [World.handed, ← hsplit, Pi.add_apply, inClass, Pi.single_eq_same, Multiset.mem_add]
    exact .inr (.inl hq)
  obtain rfl := List.length_eq_zero_iff.mp h0
  have hsame : w₂ = w₁ := by
    rw [← hw₂, (TransferCache.removeRange_eq_nil (by rw [hsc]; exact hbatch) hslots).2,
      Allocator.setCache, Function.update_eq_self]
  subst hsame
  rw [if_pos h0] at h
  -- the central list
  obtain ⟨count, hcount⟩ := Nat.exists_eq_succ_of_ne_zero
    (show (roundSizeClass n).1.batchSize ≠ 0 by rw [hsc]; omega)
  rw [hcount, Program.allocateBatch, Program.centralAllocate, bind_assoc, Prog.exec_perform_bind,
    Option.bind_eq_some_iff] at h
  obtain ⟨⟨q, w₂⟩, hcentral, h⟩ := h
  by_cases hq : q = (0 : Nat)
  swap
  · rw [if_neg hq, bind_assoc] at h
    refine absurd rfl (Prog.Returns.exec (φ := fun p => p ≠ 0)
      ((allocateBatch_returns _ count).bind fun ps hps => ?_) h)
    refine @returns_ne_zero _ (q :: ps) (fun p hp => ?_) (by simp)
    rcases List.mem_cons.mp hp with rfl | hp
    · exact hq
    · exact hps p hp
  subst hq
  rw [if_pos rfl] at h
  obtain rfl : w' = w₂ := (Prod.mk.inj (Option.some.inj h)).2.symm
  obtain ⟨⟨q, a⟩, hmap, heq⟩ := Option.map_eq_some_iff.mp hcentral
  obtain ⟨⟨q', b'⟩, hres, heq'⟩ := Option.map_eq_some_iff.mp hmap
  obtain ⟨rfl, rfl⟩ := Prod.mk.inj heq
  obtain ⟨rfl, rfl⟩ := Prod.mk.inj heq'
  exact ⟨b', hres, rfl⟩

/-- **Failed requests.**  When `allocate(n)`, called by an idle thread in a state that any number of
threads reach, returns null, the tiers are as before the call exactly when `n` is above the largest
class, its class has objects, or the page heap cannot give a span of the class. -/
theorem failed_allocate_iff [DecidableEq ι] {mem : Memory} {foreign : Nat → Bool}
    {slabPage slabCount : Nat} {ls : List (Step ι Call Env ClientWrite)} {u : Process ι}
    (r : (Process.system ι).Run (Process.init ι mem foreign slabPage slabCount) ls u)
    {env : Nat → Env} {n : Nat} {w : World}
    (h : machine.alone env u.state (.allocate n) = some ((0 : Nat), w)) :
    u.state.SameTiers w ↔ maxSize < n ∨ Fits n ∨
      ¬ u.state.allocator.backend.pageHeap.Supplies (env 2).kernel
        (sizeClass (roundSizeClass n).2).pages := by
  obtain ⟨hi, -⟩ := ok_of_run r
  obtain ⟨⟨v, w₁⟩, hexec, heq⟩ := Option.map_eq_some_iff.mp
    (show Option.map _ (Prog.exec World.perform (Program.allocate n) env u.state) = _ from h)
  obtain ⟨rfl, rfl⟩ := Prod.mk.inj heq
  have hfinish : w₁.finish (.allocate n) (0 : Nat) = w₁ := by simp [World.finish]
  change u.state.SameTiers (w₁.finish (.allocate n) (0 : Nat)) ↔ _
  rw [hfinish]
  rcases Nat.lt_or_ge maxSize n with hn | hn
  · rw [Program.allocate, roundSizeClass_of_gt hn] at hexec
    obtain rfl : u.state = w₁ := (Prod.mk.inj (Option.some.inj hexec)).2
    exact iff_of_true ⟨rfl, rfl, rfl, fun _ => rfl, rfl, rfl, rfl, rfl, rfl⟩ (.inl hn)
  · obtain ⟨-, h₁, h₂, -, -⟩ := roundSizeClass_spec hn
    obtain ⟨b', hres, rfl⟩ := exec_allocate_null hi hn hexec
    obtain ⟨L, S, hb⟩ := hi.backend
    obtain ⟨p, b'', L', S', hres', -, -, hcase⟩ :=
      Backend.allocate_cases hb (sizeClass_classOk _) (env 2).kernel
    obtain ⟨rfl, rfl⟩ := Prod.mk.inj (Option.some.inj (hres.symm.trans hres'))
    rw [hcase.sameTiers_iff hb rfl h₁ h₂, ← fits_iff hn, or_iff_right (not_lt.mpr hn)]

/-- The request of 8192 bytes returns null and leaves its page in the page map. -/
theorem failed_allocate_fails : ∃ w,
    machine.alone (fun _ => ⟨0, fun _ => some 16⟩)
      (World.init Memory.zero (fun _ => false) 1000 1) (.allocate 8192) = some ((0 : Nat), w) ∧
    ¬ (World.init Memory.zero (fun _ => false) 1000 1).SameTiers w := by
  have h : (machine.alone (fun _ => ⟨0, fun _ => some 16⟩)
      (World.init Memory.zero (fun _ => false) 1000 1) (.allocate 8192)).map
        (fun r => (r.1, r.2.allocator.backend.pageHeap.pageMap 16)) = some ((0 : Nat), some 0) := by
    decide +kernel
  obtain ⟨⟨v, w⟩, hres, heq⟩ := Option.map_eq_some_iff.mp h
  obtain ⟨rfl, hpage⟩ := Prod.mk.inj heq
  refine ⟨w, hres, fun hsame => ?_⟩
  have hinit : w.allocator.backend.pageHeap.pageMap 16 = none := congrFun hsame.pageMap 16
  rw [hinit] at hpage
  cases hpage

/-- A request of 28000 bytes after the run of `sampleSteps`, where the kernel gives nothing. -/
theorem failed_allocate_sample : ∃ (u : Process (Fin 2)) (w : World),
    (Process.system (Fin 2)).Run (Process.init (Fin 2) Memory.zero (fun _ => false) 1000 1)
      sampleSteps u ∧
    machine.alone (fun _ => ⟨0, fun _ => none⟩) u.state (.allocate 28000) =
      some ((0 : Nat), w) ∧ u.state.SameTiers w := by
  obtain ⟨u, -, r, -⟩ := sampleSteps_run
  have h : ((Process.system (Fin 2)).replay
      (Process.init (Fin 2) Memory.zero (fun _ => false) 1000 1) sampleSteps).bind (fun u =>
        (machine.alone (fun _ => ⟨0, fun _ => none⟩) u.state (.allocate 28000)).map
          fun r => r.1) = some (0 : Nat) := by
    decide +kernel
  rw [r.replay_eq, Option.bind_some] at h
  obtain ⟨⟨v, w⟩, hres, rfl⟩ := Option.map_eq_some_iff.mp h
  exact ⟨u, w, r, hres, (failed_allocate_iff r hres).mpr (.inr (.inl (.inr (.inr (by decide)))))⟩

end TieredAllocator
