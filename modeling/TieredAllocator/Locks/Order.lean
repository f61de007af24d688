import TieredAllocator.Locks.Definitions

/-!
# Locks — order

A central list calls the page heap while it is locked; nothing else locks a mutex under another, so
`PageHeap::mu` comes after all others.  Each action locks in this order, does under a mutex what the
mutex guards, and ends with none (`LockedProgram.expand_ordered`).  Hence the threads of a process
exclude each other where they have to, and never all wait (`mutexes_in_order`).
-/

namespace TieredAllocator
open Lib

/-- The page heap is locked last. -/
def Mutex.rank : Mutex → Nat
  | .heap => 1
  | .list _ => 0
  | .cache _ => 0

/-- The mutex that guards what the piece reads and writes. -/
def Piece.guard : Piece → Option Mutex
  | .whole (.removeRange sc _) => some (.cache sc)
  | .whole (.insertRange sc _) => some (.cache sc)
  | .whole (.spanFor _) => some .heap
  | .startAllocate sc => some (.list sc)
  | .resumeAllocate sc _ => some (.list sc)
  | .startDeallocate sc _ _ => some (.list sc)
  | .allocateSpan _ _ => some .heap
  | .returnSpan _ => some .heap
  | _ => none

def Piece.lockStep : Piece → Option (LockStep Mutex)
  | .lock m => some (.acquire m)
  | .unlock m => some (.release m)
  | _ => none

namespace LockedWorld

variable {e : Env} {w w' : LockedWorld} {a : Piece} {r : PieceAnswer a} {m : Mutex}

theorem perform_lock {r : Unit} (h : w.perform e (.lock m) = some (r, w')) :
    w.locked m = false ∧ w' = { w with locked := Function.update w.locked m true } := by
  simp only [perform] at h
  split at h
  · cases h
  · exact ⟨eq_false_of_ne_true ‹_›, (congrArg Prod.snd (Option.some.inj h)).symm⟩

theorem perform_unlock {r : Unit} (h : w.perform e (.unlock m) = some (r, w')) :
    w' = { w with locked := Function.update w.locked m false } := by
  simp only [perform] at h
  split at h
  · exact (congrArg Prod.snd (Option.some.inj h)).symm
  · cases h

/-- The other pieces leave the mutexes. -/
theorem perform_locked (h : w.perform e a = some (r, w')) (ha : a.lockStep = none) :
    w'.locked = w.locked := by
  cases a with
  | lock m => cases ha
  | unlock m => cases ha
  | whole a | startAllocate sc | resumeAllocate sc span | startDeallocate sc s ptr
  | allocateSpan pages size | returnSpan s =>
      obtain ⟨q, -, hq⟩ := Option.map_eq_some_iff.mp h
      obtain ⟨-, rfl⟩ := Prod.mk.inj hq
      rfl

end LockedWorld

theorem Piece.eq_lock {a : Piece} {m : Mutex} (h : a.lockStep = some (.acquire m)) :
    a = .lock m := by
  cases a <;> cases h
  rfl

theorem Piece.eq_unlock {a : Piece} {m : Mutex} (h : a.lockStep = some (.release m)) :
    a = .unlock m := by
  cases a <;> cases h
  rfl

theorem trackLocks_other {held : List Mutex} {a : Piece} {r : PieceAnswer a}
    (h : a.lockStep = none) : trackLocks held a r = held := by
  cases a <;> first | rfl | cases h

/-- The mutexes of the machine. -/
def locking : Locking lockedMachine Mutex where
  lockStep := Piece.lockStep
  taken w := w.locked
  holds held := held
  acquire {e _ _ _ _ _} h ha := by
    obtain rfl := Piece.eq_lock ha
    obtain ⟨hfree, rfl⟩ := LockedWorld.perform_lock (e := e) h
    exact ⟨hfree, rfl⟩
  release {e _ _ _ _ _} h ha := by
    obtain rfl := Piece.eq_unlock ha
    exact congrArg LockedWorld.locked (LockedWorld.perform_unlock (e := e) h)
  other h ha := LockedWorld.perform_locked h ha
  track_acquire ha := by
    obtain rfl := Piece.eq_lock ha
    rfl
  track_release ha := by
    obtain rfl := Piece.eq_unlock ha
    rfl
  track_other ha := trackLocks_other ha
  begin h := by
    obtain ⟨q, -, hq⟩ := Option.map_eq_some_iff.mp h
    obtain ⟨rfl, rfl⟩ := Prod.mk.inj hq
    exact ⟨rfl, rfl⟩
  finish := rfl
  client h := by
    obtain ⟨q, -, rfl⟩ := Option.map_eq_some_iff.mp h
    rfl

namespace LockedProgram

/-- What a piece needs of the mutexes its thread holds. -/
abbrev order : Prog.Rules Piece PieceAnswer (List Mutex) :=
  ⟨locking.Fine Mutex.rank fun a m => a.guard = some m, fun _ _ _ => True, trackLocks⟩

variable {β : Type} {held : List Mutex} {m : Mutex} {Q : List Mutex → β → Prop}

/-- A guarded program may lock what comes after `m`. -/
theorem wp_guarded {p : LockedProgram β} (hm : ∀ n ∈ held, n.rank < m.rank)
    (hp : p.wp order (fun g _ => g = m :: held) (m :: held)) :
    (guarded m p).wp order (fun g _ => g = held) held := by
  refine Prog.wp_seq (P := fun g _ => g = m :: held) ⟨hm, fun _ _ => rfl⟩ ?_
  rintro _ - rfl
  refine Prog.wp_seq hp ?_
  rintro _ v rfl
  exact ⟨List.mem_cons_self, fun _ _ => List.erase_cons_head ..⟩

/-- A piece that locks nothing, under its mutex. -/
theorem wp_piece {a : Piece} (ha : a.lockStep = none) (hm : ∀ m, a.guard = some m → m ∈ held) :
    (piece a).wp order (fun g _ => g = held) held := by
  refine ⟨?_, fun r _ => trackLocks_other ha⟩
  simp only [Locking.Fine, show locking.lockStep a = none from ha]
  exact hm

theorem wp_own {a : Piece} (ha : a.lockStep = none) (hm : a.guard = some m) :
    (piece a).wp order (fun g _ => g = m :: held) (m :: held) :=
  wp_piece ha fun n hn => by
    obtain rfl := Option.some.inj (hm.symm.trans hn)
    exact List.mem_cons_self

theorem wp_allocateSpan {pages size : Nat} (hm : ∀ n ∈ held, n.rank < Mutex.rank .heap) :
    (allocateSpan pages size).wp order (fun g _ => g = held) held := by
  rw [allocateSpan]
  split
  · rfl
  · exact wp_guarded hm (wp_own rfl rfl)

/-- **Order.**  Each action locks in the order of the ranks, works under the mutexes it needs, and
ends as it began, with none. -/
theorem expand_ordered (a : Action) : (expand a).wp order (fun g _ => g = []) [] := by
  have hnil : ∀ {m n : Mutex}, n ∈ [] → n.rank < m.rank := fun h => absurd h List.not_mem_nil
  have hlist : ∀ {sc : Nat}, ∀ n ∈ [Mutex.list sc], n.rank < Mutex.rank .heap := by
    intro sc n hn
    obtain rfl := List.mem_singleton.mp hn
    exact Nat.one_pos
  cases a with
  | slabPop sc => exact wp_piece rfl fun m hm => by cases hm
  | slabPush sc ptr => exact wp_piece rfl fun m hm => by cases hm
  | spanSize s => exact wp_piece rfl fun m hm => by cases hm
  | removeRange sc n => exact wp_guarded (fun _ => hnil) (wp_own rfl rfl)
  | insertRange sc batch => exact wp_guarded (fun _ => hnil) (wp_own rfl rfl)
  | spanFor ptr => exact wp_guarded (fun _ => hnil) (wp_own rfl rfl)
  | centralAllocate sc =>
      refine wp_guarded (fun _ => hnil) (Prog.wp_seq (wp_own rfl rfl) ?_)
      rintro _ chosen rfl
      cases chosen with
      | result ptr => rfl
      | fetch pages size =>
          refine Prog.wp_seq (wp_allocateSpan hlist) ?_
          rintro _ span rfl
          exact wp_own rfl rfl
  | centralDeallocate sc s ptr =>
      refine wp_guarded (fun _ => hnil) (Prog.wp_seq (wp_own rfl rfl) ?_)
      rintro _ released rfl
      cases released with
      | false => rfl
      | true => exact wp_guarded hlist (wp_own rfl rfl)

end LockedProgram

namespace LockedProcess

variable {ι : Type} (u : LockedProcess ι)

/-- The mutexes that a thread holds. -/
def mutexes (t : ι) : List Mutex := (u.threads t).ghost.getD []

/-- The piece that a thread is at. -/
def next (t : ι) : Option Piece :=
  match u.threads t with
  | .busy _ _ (.act a _) => some a
  | _ => none

variable {u}

theorem ghost_of_mem {t : ι} {m : Mutex} (h : m ∈ u.mutexes t) :
    ∃ g, Machine.ghosts u t = some g ∧ m ∈ g := by
  rw [mutexes] at h
  cases hg : (u.threads t).ghost with
  | none =>
      rw [hg] at h
      cases h
  | some g =>
      rw [hg] at h
      exact ⟨g, hg, h⟩

theorem busy_of_next {t : ι} {a : Piece} (h : u.next t = some a) :
    ∃ c g k, u.threads t = .busy c g (.act a k) := by
  rw [next] at h
  split at h
  · obtain rfl := Option.some.inj h
    exact ⟨_, _, _, ‹_›⟩
  · cases h

end LockedProcess

/-- **The mutexes.**  In each state of a run, a mutex is locked exactly if one thread holds it; two
threads are never at pieces that the same mutex guards; and as long as a call is running, some
running thread does not wait for a mutex. -/
theorem mutexes_in_order {ι : Type} [DecidableEq ι] {mem : Memory} {foreign : Nat → Bool}
    {slabPage slabCount : Nat} {ls : List (Step ι Call Env ClientWrite)} {u : LockedProcess ι}
    (r : (LockedProcess.system ι).Run (LockedProcess.init ι mem foreign slabPage slabCount) ls u) :
    (∀ m, u.state.locked m = true ↔ ∃! t, m ∈ u.mutexes t) ∧
    (∀ t t' a a', u.next t = some a → u.next t' = some a' → a.guard.isSome →
      a.guard = a'.guard → t = t') ∧
    (∀ t, u.threads t ≠ .idle →
      ∃ t', u.threads t' ≠ .idle ∧ ∀ m, u.next t' = some (.lock m) → u.state.locked m = false) := by
  have hu : locking.Safe Mutex.rank (fun a m => a.guard = some m) u := by
    refine Locking.run_safe (fun _ => rfl) (fun {s c g s'} hb => ?_) r
    obtain ⟨q, -, hq⟩ := Option.map_eq_some_iff.mp hb
    obtain ⟨rfl, -⟩ := Prod.mk.inj hq
    refine Prog.wp_expand (P := fun g => g = []) (fun a g hg => ?_) rfl
    subst hg
    exact LockedProgram.expand_ordered a
  have hheld : ∀ t g m, Machine.ghosts u t = some g → m ∈ g → m ∈ u.mutexes t := by
    intro t g m hg hm
    rw [LockedProcess.mutexes, show (u.threads t).ghost = some g from hg]
    exact hm
  have hguard : ∀ t a m, u.next t = some a → a.guard = some m → ∃ g,
      Machine.ghosts u t = some g ∧ m ∈ g := by
    intro t a m ha hm
    obtain ⟨c, g, k, ht⟩ := LockedProcess.busy_of_next ha
    have hfine := (hu.ordered t c g _ ht).1
    have hstep : locking.lockStep a = none := by
      cases a <;> first | rfl | cases hm
    simp only [Locking.Fine, hstep] at hfine
    exact ⟨g, Locking.ghosts_of_busy ht, hfine m hm⟩
  refine ⟨fun m => ?_, fun t t' a a' ha ha' hsome heq => ?_, fun t ht => ?_⟩
  · refine (hu.taken m).trans ⟨?_, ?_⟩
    · rintro ⟨t, g, hg, hm⟩
      refine ⟨t, hheld t g m hg hm, fun t' hm' => ?_⟩
      obtain ⟨g', hg', hm'⟩ := LockedProcess.ghost_of_mem hm'
      exact hu.exclusive t' t g' g m hg' hg hm' hm
    · rintro ⟨t, hm, -⟩
      obtain ⟨g, hg, hm⟩ := LockedProcess.ghost_of_mem hm
      exact ⟨t, g, hg, hm⟩
  · obtain ⟨m, hm⟩ := Option.isSome_iff_exists.mp hsome
    obtain ⟨g, hg, hmg⟩ := hguard t a m ha hm
    obtain ⟨g', hg', hmg'⟩ := hguard t' a' m ha' (heq ▸ hm)
    exact hu.exclusive t t' g g' m hg hg' hmg hmg'
  · cases hth : u.threads t with
    | idle => exact absurd hth ht
    | busy c g p =>
        obtain ⟨t', c', g', p', ht', hwait⟩ := hu.progress (N := 1) (by
          intro m
          cases m
          · exact le_rfl
          · exact Nat.zero_le _
          · exact Nat.zero_le _) hth
        have hbusy : u.threads t' ≠ .idle := by
          intro hidle
          rw [hidle] at ht'
          cases ht'
        refine ⟨t', hbusy, fun m hm => ?_⟩
        obtain ⟨c₁, g₁, k, hth₁⟩ := LockedProcess.busy_of_next hm
        exact eq_false_of_ne_true fun htaken => hwait m ⟨c₁, g₁, _, k, hth₁, rfl, htaken⟩

/-- Two threads ask for 100 bytes; the first has locked the transfer cache, for which the second
waits. -/
def contendingSteps : List (Step Bool Call Env ClientWrite) :=
  let e : Env := ⟨0, fun _ => none⟩
  [.start false (.allocate 100), .act false e, .act false e, .start true (.allocate 100),
    .act true e]

theorem mutexes_in_order_sample : ∃ u, (LockedProcess.system Bool).Run
    (LockedProcess.init Bool Memory.zero (fun _ => false) 1000 1) contendingSteps u ∧
    (∃! t, .cache (roundSizeClass 100).2 ∈ u.mutexes t) ∧
    ∃ t, u.threads t ≠ .idle ∧ ∀ m, u.next t = some (.lock m) → u.state.locked m = false := by
  have h : (((LockedProcess.system Bool).replay
      (LockedProcess.init Bool Memory.zero (fun _ => false) 1000 1) contendingSteps).map fun u =>
        (u.state.locked (.cache (roundSizeClass 100).2), (u.threads true).ghost.isSome)) =
          some (true, true) := by
    decide +kernel
  obtain ⟨u, hu, heq⟩ := Option.map_eq_some_iff.mp h
  obtain ⟨hlocked, hbusy⟩ := Prod.mk.inj heq
  have r := System.Run.of_replay hu
  obtain ⟨htaken, -, hrunning⟩ := mutexes_in_order r
  refine ⟨u, r, (htaken _).mp hlocked, hrunning true fun hidle => ?_⟩
  rw [hidle] at hbusy
  cases hbusy

end TieredAllocator
