import Mathlib.Data.Fintype.Defs
import Mathlib.Logic.Function.Basic
import TieredAllocator.Lib.Preemption

/-!
# Library — threads on several processors

Any number of threads run calls instruction by instruction on one memory.  A thread in a call runs
on a CPU or waits for one.  Before any instruction the kernel may take it off its CPU; later it puts
it on any CPU on which no other one runs, and there it goes on as an interrupted thread does.

`Atomic` says what this is for: the same threads, where a call is one operation at one moment
between its beginning and its return.  What a call has done may be lost to it, and then it does its
operation again.  From an outline for each call, and from what an instruction leaves of the memory
that the threads on the other CPUs look at (`Protocol`), each run of the threads is one of `Atomic`
with the same calls, returns and losses; a call loses what it has done exactly where it is taken off
in its window (`Protocol.refines`).  If no thread is, then this is linearizability.

`Protocol.Ranking.progress` bounds the instructions of a thread by the calls it begins and the times
it is put on a CPU again, so a thread that is left alone comes to its end, whatever the others do.
-/

namespace TieredAllocator.Lib

/-- Calls `κ` on a memory, the code they run, and the operation each is meant to be. -/
structure Workload (κ θ μ ω α τ : Type) extends Service μ ω α τ where
  step : κ → μ → θ → Option (θ × μ)
  interrupt : κ → (cpu : Nat) → θ → θ
  cpu : θ → Nat
  /-- the CPU that an operation is done on -/
  site : ω → Nat
  IsCpu : Nat → Prop
  /-- the thread is at the beginning of the call -/
  Begins : κ → θ → Prop
  /-- the thread is at the end of the code -/
  Ended : κ → θ → Prop
  answer : κ → θ → α
  /-- the operation that the call stands for, on the CPU it is done on -/
  own : κ → (cpu : Nat) → ω

inductive Task (κ θ : Type) where
  | idle
  | running (c : κ) (th : θ)
  | waiting (c : κ) (th : θ)

structure Tasks (ι κ θ μ : Type) where
  task : ι → Task κ θ
  mem : μ

inductive Workload.Event (ι κ θ α : Type) where
  | start (i : ι) (c : κ) (th : θ)
  | exec (i : ι)
  | preempt (i : ι)
  | resume (i : ι) (cpu : Nat)
  | finish (i : ι) (a : α)

def Workload.Event.thread {ι κ θ α : Type} : Workload.Event ι κ θ α → ι
  | .start i _ _ | .exec i | .preempt i | .resume i _ | .finish i _ => i

/-- What is seen of a run. -/
inductive Shown (ι κ α : Type) where
  | call (i : ι) (c : κ)
  | ret (i : ι) (a : α)
  /-- what the thread has done is lost to it -/
  | lost (i : ι)

variable {ι κ θ μ ω α τ : Type} [DecidableEq ι]

namespace Workload

variable (W : Workload κ θ μ ω α τ)

/-- The call alone, next to the operations of others. -/
def scene (c : κ) : Scene θ μ ω α τ where
  toService := W.toService
  step := W.step c
  interrupt := W.interrupt c
  cpu := W.cpu
  site := W.site
  IsCpu := W.IsCpu

/-- The CPU that the thread runs on. -/
def onCpu : Task κ θ → Option Nat
  | .running _ th => some (W.cpu th)
  | _ => none

/-- No thread runs on the CPU. -/
def Vacant (w : Tasks ι κ θ μ) (cpu : Nat) : Prop := ∀ i, W.onCpu (w.task i) ≠ some cpu

instance [Fintype ι] (w : Tasks ι κ θ μ) (cpu : Nat) : Decidable (Vacant W w cpu) :=
  inferInstanceAs (Decidable (∀ i, W.onCpu (w.task i) ≠ some cpu))

def setTask (w : Tasks ι κ θ μ) (i : ι) (t : Task κ θ) : Tasks ι κ θ μ :=
  { w with task := Function.update w.task i t }

def mayStart (w : Tasks ι κ θ μ) (i : ι) (c : κ) (th : θ) : Prop :=
  match w.task i with
  | .idle => W.Begins c th ∧ W.IsCpu (W.cpu th) ∧ Vacant W w (W.cpu th)
  | _ => False

def mayFinish (w : Tasks ι κ θ μ) (i : ι) (a : α) : Prop :=
  match w.task i with
  | .running c th => W.Ended c th ∧ a = W.answer c th
  | _ => False

section Decidable
variable [∀ c th, Decidable (W.Begins c th)] [∀ c th, Decidable (W.Ended c th)]
  [DecidablePred W.IsCpu] [DecidableEq α] [Fintype ι]

instance (w : Tasks ι κ θ μ) (i : ι) (c : κ) (th : θ) : Decidable (mayStart W w i c th) :=
  match h : w.task i with
  | .idle =>
      decidable_of_iff (W.Begins c th ∧ W.IsCpu (W.cpu th) ∧ Vacant W w (W.cpu th))
        (by rw [mayStart, h])
  | .running _ _ | .waiting _ _ => isFalse (by rw [mayStart, h]; exact id)

instance (w : Tasks ι κ θ μ) (i : ι) (a : α) : Decidable (mayFinish W w i a) :=
  match h : w.task i with
  | .running c th => decidable_of_iff (W.Ended c th ∧ a = W.answer c th) (by rw [mayFinish, h])
  | .idle | .waiting _ _ => isFalse (by rw [mayFinish, h]; exact id)

end Decidable

def execute (w : Tasks ι κ θ μ) (i : ι) : Option (Tasks ι κ θ μ) :=
  match w.task i with
  | .running c th => (W.step c w.mem th).map fun r =>
      { task := Function.update w.task i (.running c r.1), mem := r.2 }
  | _ => none

def takeOff (w : Tasks ι κ θ μ) (i : ι) : Option (Tasks ι κ θ μ) :=
  match w.task i with
  | .running c th => some (setTask w i (.waiting c th))
  | _ => none

def putOn (w : Tasks ι κ θ μ) (i : ι) (cpu : Nat) : Option (Tasks ι κ θ μ) :=
  match w.task i with
  | .waiting c th => some (setTask w i (.running c (W.interrupt c cpu th)))
  | _ => none

def system (ι : Type) [DecidableEq ι] : System (Tasks ι κ θ μ) (Event ι κ θ α) where
  allowed w
    | .start i c th => mayStart W w i c th
    | .exec _ | .preempt _ => True
    | .resume _ cpu => W.IsCpu cpu ∧ Vacant W w cpu
    | .finish i a => mayFinish W w i a
  step w
    | .start i c th => some (setTask w i (.running c th))
    | .exec i => execute W w i
    | .preempt i => takeOff w i
    | .resume i cpu => putOn W w i cpu
    | .finish i _ => some (setTask w i .idle)

instance [∀ c th, Decidable (W.Begins c th)] [∀ c th, Decidable (W.Ended c th)]
    [DecidablePred W.IsCpu] [DecidableEq α] [Fintype ι] :
    ∀ w e, Decidable ((W.system ι).allowed w e)
  | w, .start i c th => inferInstanceAs (Decidable (mayStart W w i c th))
  | _, .exec _ | _, .preempt _ => isTrue trivial
  | w, .resume _ cpu => inferInstanceAs (Decidable (W.IsCpu cpu ∧ Vacant W w cpu))
  | w, .finish i a => inferInstanceAs (Decidable (mayFinish W w i a))

/-- All threads idle. -/
def rest (m : μ) : Tasks ι κ θ μ := ⟨fun _ => .idle, m⟩

/-- What is seen of a step, if a thread loses what it has done when it is taken off in `window`. -/
def shown (window : κ → θ → Bool) (w : Tasks ι κ θ μ) : Event ι κ θ α → Option (Shown ι κ α)
  | .start i c _ => some (.call i c)
  | .preempt i =>
      match w.task i with
      | .running c th => if window c th then some (.lost i) else none
      | _ => none
  | .finish i a => some (.ret i a)
  | .exec _ | .resume _ _ => none

end Workload

/-! ### Inversion -/

section Inversion
variable {W : Workload κ θ μ ω α τ} {w w' : Tasks ι κ θ μ} {i j : ι} {cpu : Nat}
  {e : Workload.Event ι κ θ α}

theorem execute_eq (h : W.execute w i = some w') : ∃ c th r, w.task i = .running c th ∧
    W.step c w.mem th = some r ∧ w' = ⟨Function.update w.task i (.running c r.1), r.2⟩ := by
  unfold Workload.execute at h
  split at h
  case h_1 c th hrun =>
    obtain ⟨r, hstep, rfl⟩ := Option.map_eq_some_iff.mp h
    exact ⟨c, th, r, hrun, hstep, rfl⟩
  case h_2 => cases h

theorem takeOff_eq (h : Workload.takeOff w i = some w') : ∃ c th, w.task i = .running c th ∧
    w' = Workload.setTask w i (.waiting c th) := by
  unfold Workload.takeOff at h
  split at h
  case h_1 c th hrun => exact ⟨c, th, hrun, (Option.some.inj h).symm⟩
  case h_2 => cases h

theorem putOn_eq (h : W.putOn w i cpu = some w') : ∃ c th, w.task i = .waiting c th ∧
    w' = Workload.setTask w i (.running c (W.interrupt c cpu th)) := by
  unfold Workload.putOn at h
  split at h
  case h_1 c th hwait => exact ⟨c, th, hwait, (Option.some.inj h).symm⟩
  case h_2 => cases h

/-- A step concerns one thread. -/
theorem task_of_ne (h : (W.system ι).step w e = some w') (hne : j ≠ e.thread) :
    w'.task j = w.task j := by
  cases e with
  | start i c th =>
      obtain rfl := Option.some.inj h
      exact Function.update_of_ne hne _ _
  | exec i =>
      obtain ⟨c, th, r, -, -, rfl⟩ := execute_eq h
      exact Function.update_of_ne hne _ _
  | preempt i =>
      obtain ⟨c, th, -, rfl⟩ := takeOff_eq h
      exact Function.update_of_ne hne _ _
  | resume i cpu =>
      obtain ⟨c, th, -, rfl⟩ := putOn_eq h
      exact Function.update_of_ne hne _ _
  | finish i a =>
      obtain rfl := Option.some.inj h
      exact Function.update_of_ne hne _ _

end Inversion

/-! ### What the threads are for -/

namespace Atomic

/-- Where a thread is: in no call, before the operation of its call, or behind it. -/
inductive Phase (κ α : Type) where
  | idle
  | called (c : κ)
  | answered (c : κ) (a : α)

structure State (ι κ α τ : Type) where
  phase : ι → Phase κ α
  state : τ

inductive Event (ι κ α : Type) where
  | call (i : ι) (c : κ)
  /-- the operation, on a CPU -/
  | act (i : ι) (cpu : Nat)
  | lose (i : ι)
  | ret (i : ι) (a : α)

def setPhase (u : State ι κ α τ) (i : ι) (p : Phase κ α) : State ι κ α τ :=
  { u with phase := Function.update u.phase i p }

def step (spec : τ → ω → α × τ) (own : κ → Nat → ω) (u : State ι κ α τ) :
    Event ι κ α → Option (State ι κ α τ)
  | .call i c =>
      match u.phase i with
      | .idle => some (setPhase u i (.called c))
      | _ => none
  | .act i cpu =>
      match u.phase i with
      | .called c =>
          let r := spec u.state (own c cpu)
          some { phase := Function.update u.phase i (.answered c r.1), state := r.2 }
      | _ => none
  | .lose i =>
      match u.phase i with
      | .answered c _ => some (setPhase u i (.called c))
      | _ => none
  | .ret i _ =>
      match u.phase i with
      | .answered _ _ => some (setPhase u i .idle)
      | _ => none

/-- A call returns what its operation was answered. -/
def allowed (IsCpu : Nat → Prop) (u : State ι κ α τ) : Event ι κ α → Prop
  | .act _ cpu => IsCpu cpu
  | .ret i a => ∃ c, u.phase i = .answered c a
  | .call _ _ | .lose _ => True

def shown (_ : State ι κ α τ) : Event ι κ α → Option (Shown ι κ α)
  | .call i c => some (.call i c)
  | .act _ _ => none
  | .lose i => some (.lost i)
  | .ret i a => some (.ret i a)

def rest (t : τ) : State ι κ α τ := ⟨fun _ => .idle, t⟩

end Atomic

/-- The specification of a workload. -/
def Workload.atomic (W : Workload κ θ μ ω α τ) (ι : Type) [DecidableEq ι] :
    System (Atomic.State ι κ α τ) (Atomic.Event ι κ α) where
  allowed := Atomic.allowed W.IsCpu
  step := Atomic.step W.spec W.own

/-! ### Refinement -/

/-- An outline for each call of the workload, and what its code leaves alone. -/
structure Protocol (W : Workload κ θ μ ω α τ) where
  outline : (c : κ) → Outline (W.scene c) (W.own c)
  begins : ∀ {c th}, W.Begins c th → W.IsCpu (W.cpu th) → ∀ m, (outline c).early th m
  cpu_step : ∀ {c m m' th th'}, W.step c m th = some (th', m') → W.cpu th' = W.cpu th
  cpu_interrupt : ∀ c cpu th, W.cpu (W.interrupt c cpu th) = cpu
  /-- What an instruction stores does not concern a thread on another CPU. -/
  early_apart : ∀ {c d th th₁ th₁' m m' t}, (outline c).early th m → (outline d).early th₁ m →
    W.Rep m t → W.cpu th₁ ≠ W.cpu th → W.step d m th₁ = some (th₁', m') → (outline c).early th m'
  /-- A thread that has done its operation stores nothing. -/
  late_mem : ∀ {c th th' m m' cpu a}, (outline c).late th cpu a → W.step c m th = some (th', m') →
    m' = m
  early_ended : ∀ {c th m}, (outline c).early th m → ¬ W.Ended c th
  late_ended : ∀ {c th cpu a}, (outline c).late th cpu a → W.Ended c th → a = W.answer c th

namespace Protocol

variable {W : Workload κ θ μ ω α τ} (P : Protocol W) {w w' : Tasks ι κ θ μ}
  {u : Atomic.State ι κ α τ} {i j : ι} {c d : κ} {th th₁ : θ} {m m' : μ} {t : τ} {cpu : Nat}

def window (c : κ) : θ → Bool := (P.outline c).window

/-- What a thread knows, and where its call is in the specification. -/
inductive Tracks (m : μ) : Task κ θ → Atomic.Phase κ α → Prop where
  | idle : Tracks m .idle .idle
  | early {c : κ} {th : θ} (h : (P.outline c).early th m) (hcpu : W.IsCpu (W.cpu th)) :
      Tracks m (.running c th) (.called c)
  | late {c : κ} {th : θ} {cpu : Nat} {a : α} (h : (P.outline c).late th cpu a)
      (hcpu : W.IsCpu (W.cpu th)) : Tracks m (.running c th) (.answered c a)
  -- it will start again, wherever it is put
  | stopped {c : κ} {th : θ}
      (h : ∀ cpu, W.IsCpu cpu → ∀ m', (P.outline c).early (W.interrupt c cpu th) m') :
      Tracks m (.waiting c th) (.called c)
  | done {c : κ} {th : θ} {cpu : Nat} {a : α} (h : (P.outline c).late th cpu a)
      (hwin : P.window c th = false) : Tracks m (.waiting c th) (.answered c a)

/-- The threads, and a state of the specification that they are in. -/
structure Linked (w : Tasks ι κ θ μ) (u : Atomic.State ι κ α τ) : Prop where
  rep : W.Rep w.mem u.state
  tracks : ∀ i, P.Tracks w.mem (w.task i) (u.phase i)
  /-- no two threads run on one CPU -/
  apart : ∀ {i j c d th th₁}, i ≠ j → w.task i = .running c th → w.task j = .running d th₁ →
    W.cpu th ≠ W.cpu th₁

variable {P}

omit [DecidableEq ι] in
theorem linked_rest (h : W.Rep m t) : P.Linked (ι := ι) (Workload.rest m) (Atomic.rest t) where
  rep := h
  tracks _ := .idle
  apart _ hi _ := by cases hi

theorem Tracks.congr {task : Task κ θ} {p : Atomic.Phase κ α} (h : P.Tracks m task p)
    (hearly : ∀ {c th}, task = .running c th → (P.outline c).early th m →
      (P.outline c).early th m') : P.Tracks m' task p := by
  cases h with
  | idle => exact .idle
  | early h hcpu => exact .early (hearly rfl h) hcpu
  | late h hcpu => exact .late h hcpu
  | stopped h => exact .stopped h
  | done h hwin => exact .done h hwin

/-- A change of one thread, and of what it may change. -/
theorem Linked.set {task : Task κ θ} {p : Atomic.Phase κ α} (h : P.Linked w u)
    (hrep : W.Rep m' t) (hself : P.Tracks m' task p)
    (hothers : ∀ j, j ≠ i → P.Tracks m' (w.task j) (u.phase j))
    (hcpu : ∀ {c th}, task = .running c th → ∀ {j d th₁}, j ≠ i → w.task j = .running d th₁ →
      W.cpu th₁ ≠ W.cpu th) :
    P.Linked ⟨Function.update w.task i task, m'⟩ ⟨Function.update u.phase i p, t⟩ := by
  refine ⟨hrep, fun j => ?_, fun {j k c d th th₁} hne hj hk => ?_⟩
  · by_cases hji : j = i
    · subst hji
      simpa using hself
    · simpa [hji] using hothers j hji
  · by_cases hji : j = i
    · subst hji
      have hkj : k ≠ j := hne.symm
      simp only [Function.update_self] at hj
      simp only [Function.update_of_ne hkj] at hk
      exact (hcpu hj hkj hk).symm
    · simp only [Function.update_of_ne hji] at hj
      by_cases hki : k = i
      · subst hki
        simp only [Function.update_self] at hk
        exact hcpu hk hji hj
      · simp only [Function.update_of_ne hki] at hk
        exact h.apart hne hj hk

/-- A change of one thread that is not put on a CPU, and of nothing else. -/
theorem Linked.setTask {task : Task κ θ} {p : Atomic.Phase κ α} (h : P.Linked w u)
    (hself : P.Tracks w.mem task p)
    (hcpu : ∀ {c th}, task = .running c th → Workload.Vacant W w (W.cpu th)) :
    P.Linked (Workload.setTask w i task) (Atomic.setPhase u i p) := by
  refine h.set h.rep hself (fun j _ => h.tracks j) ?_
  intro c th htask j d th₁ _ hj
  have hoff := hcpu htask j
  rw [hj] at hoff
  exact fun heq => hoff (congrArg some heq)

/-! #### The steps -/

/-- What matches a step: a run of the specification that shows the same. -/
def Matched (P : Protocol W) (u : Atomic.State ι κ α τ) (shown : Option (Shown ι κ α))
    (w' : Tasks ι κ θ μ) : Prop :=
  ∃ as u', (W.atomic ι).Run u as u' ∧ (W.atomic ι).trace Atomic.shown u as = shown.toList ∧
    P.Linked w' u'

theorem Matched.none (h : P.Linked w' u) : P.Matched u none w' := ⟨[], u, .refl u, rfl, h⟩

theorem Matched.one {e : Atomic.Event ι κ α} {u' : Atomic.State ι κ α τ}
    (ha : Atomic.allowed W.IsCpu u e) (hs : Atomic.step W.spec W.own u e = some u')
    (h : P.Linked w' u') : P.Matched u (Atomic.shown u e) w' := by
  refine ⟨[e], u', .one ha hs, ?_, h⟩
  rw [System.trace, show (W.atomic ι).step u e = some u' from hs]
  exact List.append_nil _

theorem matched_start (h : P.Linked w u) (ha : Workload.mayStart W w i c th) :
    P.Matched u (some (.call i c)) (Workload.setTask w i (.running c th)) := by
  have htracks := h.tracks i
  unfold Workload.mayStart at ha
  split at ha
  case h_1 hidle =>
    obtain ⟨hbegins, hiscpu, hvacant⟩ := ha
    rw [hidle] at htracks
    cases hphase : u.phase i with
    | idle =>
        refine Matched.one (e := .call i c) trivial (by simp [Atomic.step, hphase])
          (h.setTask (.early (P.begins hbegins hiscpu _) hiscpu) ?_)
        rintro c' th' htask
        cases htask
        exact hvacant
    | called c' => rw [hphase] at htracks; cases htracks
    | answered c' a => rw [hphase] at htracks; cases htracks
  case h_2 => exact ha.elim

theorem matched_finish {a : α} (h : P.Linked w u) (ha : Workload.mayFinish W w i a) :
    P.Matched u (some (.ret i a)) (Workload.setTask w i .idle) := by
  have htracks := h.tracks i
  unfold Workload.mayFinish at ha
  split at ha
  case h_1 c th hrun =>
    obtain ⟨hended, rfl⟩ := ha
    rw [hrun] at htracks
    generalize hphase : u.phase i = p at htracks
    cases htracks with
    | early hearly _ => exact absurd hended (P.early_ended hearly)
    | late hlate _ =>
        obtain rfl := P.late_ended hlate hended
        exact Matched.one (e := .ret i _) ⟨c, hphase⟩ (by simp [Atomic.step, hphase])
          (h.setTask .idle fun htask => by cases htask)
  case h_2 => exact ha.elim

theorem matched_resume (h : P.Linked w u) (hiscpu : W.IsCpu cpu)
    (hvacant : Workload.Vacant W w cpu) (hs : Workload.putOn W w i cpu = some w') :
    P.Matched u none w' := by
  have htracks := h.tracks i
  obtain ⟨c, th, hwait, rfl⟩ := putOn_eq hs
  rw [hwait] at htracks
  have hcpu := P.cpu_interrupt c cpu th
  have hiscpu' : W.IsCpu (W.cpu (W.interrupt c cpu th)) := by rwa [hcpu]
  have hlinked : P.Linked (Workload.setTask w i (.running c (W.interrupt c cpu th)))
      (Atomic.setPhase u i (u.phase i)) := by
    refine h.setTask ?_ fun htask => ?_
    · generalize u.phase i = p at htracks
      cases htracks with
      | stopped hearly => exact .early (hearly cpu hiscpu _) hiscpu'
      | done hlate hwin => exact .late ((P.outline c).keep hlate hwin) hiscpu'
    · cases htask
      rwa [hcpu]
  rw [Atomic.setPhase, Function.update_eq_self] at hlinked
  exact Matched.none hlinked

/-- A thread that is taken off will start again, if it has done nothing or is in its window. -/
theorem matched_preempt (h : P.Linked w u) (hs : Workload.takeOff w i = some w') :
    P.Matched u (Workload.shown P.window w (.preempt i)) w' := by
  have htracks := h.tracks i
  obtain ⟨c, th, hrun, rfl⟩ := takeOff_eq hs
  simp only [Workload.shown, hrun]
  rw [hrun] at htracks
  have hset : ∀ p, P.Tracks w.mem (.waiting c th) p →
      P.Linked (Workload.setTask w i (.waiting c th)) (Atomic.setPhase u i p) :=
    fun p hp => h.setTask hp fun htask => by cases htask
  have hkeep : P.Tracks w.mem (.waiting c th) (u.phase i) →
      P.Linked (Workload.setTask w i (.waiting c th)) u := fun hp => by
    have hlinked := hset _ hp
    rwa [Atomic.setPhase, Function.update_eq_self] at hlinked
  generalize hphase : u.phase i = p at htracks hkeep
  cases htracks with
  | early hearly hiscpu =>
      have hwin : P.window c th = false := (P.outline c).early_window hearly
      rw [hwin, if_neg Bool.false_ne_true]
      exact Matched.none (hkeep (.stopped fun cpu' hcpu' => (P.outline c).restart hearly hcpu'))
  | late hlate hiscpu =>
      cases hwin : P.window c th with
      | true =>
          exact Matched.one (e := .lose i) trivial (by simp [Atomic.step, hphase])
            (hset _ (.stopped fun cpu' hcpu' => (P.outline c).again hlate hwin hcpu'))
      | false => exact Matched.none (hkeep (.done hlate hwin))

theorem matched_exec (h : P.Linked w u) (hs : Workload.execute W w i = some w') :
    P.Matched u none w' := by
  have htracks := h.tracks i
  obtain ⟨c, th, ⟨th', m'⟩, hrun, hstep, rfl⟩ := execute_eq hs
  rw [hrun] at htracks
  have hcpu := P.cpu_step hstep
  have hset : ∀ p t, W.Rep m' t → P.Tracks m' (.running c th') p →
      (∀ d th₁, W.cpu th ≠ W.cpu th₁ → (P.outline d).early th₁ w.mem →
        (P.outline d).early th₁ m') →
      P.Linked ⟨Function.update w.task i (.running c th'), m'⟩
        ⟨Function.update u.phase i p, t⟩ := by
    intro p t hrep hself hothers
    refine h.set hrep hself (fun j hj => (h.tracks j).congr fun hrun' => ?_) ?_
    · exact hothers _ _ (h.apart (Ne.symm hj) hrun hrun')
    · rintro c' th₁ htask j d th₂ hj hrun'
      cases htask
      rw [hcpu]
      exact h.apart hj hrun' hrun
  generalize hphase : u.phase i = p at htracks
  cases htracks with
  | early hearly hiscpu =>
      have hothers : ∀ d th₁, W.cpu th ≠ W.cpu th₁ → (P.outline d).early th₁ w.mem →
          (P.outline d).early th₁ m' :=
        fun d th₁ hne hearly' => P.early_apart hearly' hearly h.rep hne hstep
      rcases (P.outline c).exec_early hearly h.rep hstep with ⟨hearly', hrep'⟩ | ⟨hlate, hrep'⟩
      · have hlinked := hset (u.phase i) u.state hrep' (hphase ▸ .early hearly' (hcpu ▸ hiscpu))
          hothers
        rw [Function.update_eq_self] at hlinked
        exact Matched.none hlinked
      · refine Matched.one (e := .act i (W.cpu th)) hiscpu ?_
          (hset _ _ hrep' (.late hlate (hcpu ▸ hiscpu)) hothers)
        simp only [Atomic.step, hphase]
        rfl
  | late hlate hiscpu =>
      obtain rfl := P.late_mem hlate hstep
      obtain ⟨hlate', hrep'⟩ := (P.outline c).exec_late hlate h.rep hstep
      have hlinked := hset (u.phase i) u.state hrep' (hphase ▸ .late hlate' (hcpu ▸ hiscpu))
        fun _ _ _ => id
      rw [Function.update_eq_self] at hlinked
      exact Matched.none hlinked

/-- Each step is matched. -/
theorem matched_step {e : Workload.Event ι κ θ α} (h : P.Linked w u)
    (ha : (W.system ι).allowed w e) (hs : (W.system ι).step w e = some w') :
    P.Matched u (Workload.shown P.window w e) w' := by
  cases e with
  | start i c th =>
      obtain rfl := Option.some.inj hs
      exact matched_start h ha
  | exec i => exact matched_exec h hs
  | preempt i => exact matched_preempt h hs
  | resume i cpu => exact matched_resume h ha.1 ha.2 hs
  | finish i a =>
      obtain rfl := Option.some.inj hs
      exact matched_finish h ha

/-- **Threads refine atomic operations.**  Each run of the threads is one of the specification, with
the same calls and returns, and with a loss exactly where a thread is taken off in its window. -/
theorem refines {m : μ} {es : List (Workload.Event ι κ θ α)}
    (r : (W.system ι).Run (Workload.rest m) es w) (hr : W.Rep m t) :
    ∃ as u, (W.atomic ι).Run (Atomic.rest t) as u ∧
      (W.atomic ι).trace Atomic.shown (Atomic.rest t) as =
        (W.system ι).trace (Workload.shown P.window) (Workload.rest m) es ∧ P.Linked w u :=
  r.refines (J := P.Linked) (fun h ha hs => matched_step h ha hs) (linked_rest hr)

/-! ### Progress -/

/-- How many instructions a thread has to the end of its code, if it is left alone. -/
structure Ranking (P : Protocol W) where
  bound : Nat
  rank : κ → θ → Nat
  rank_le : ∀ c th, rank c th ≤ bound
  rank_early : ∀ {c th th' m m' t}, (P.outline c).early th m → W.Rep m t →
    W.step c m th = some (th', m') → rank c th' < rank c th
  rank_late : ∀ {c th th' m m' cpu a}, (P.outline c).late th cpu a →
    W.step c m th = some (th', m') → rank c th' < rank c th
  defined : ∀ {c th m}, ((P.outline c).early th m ∨ ∃ cpu a, (P.outline c).late th cpu a) →
    ¬ W.Ended c th → ∃ r, W.step c m th = some r

namespace Ranking

/-- The thread executes an instruction. -/
def isExec (i : ι) : Workload.Event ι κ θ α → Bool
  | .exec j => j == i
  | _ => false

/-- The thread begins a call or is put on a CPU again. -/
def isPutOn (i : ι) : Workload.Event ι κ θ α → Bool
  | .start j _ _ | .resume j _ => j == i
  | _ => false

variable (K : Ranking P)

def rankOf : Task κ θ → Nat
  | .running c th => K.rank c th
  | _ => 0

theorem rankOf_le (task : Task κ θ) : K.rankOf task ≤ K.bound := by
  cases task with
  | running c th => exact K.rank_le c th
  | idle | waiting c th => exact Nat.zero_le _

/-- A thread that is put on a CPU pays for it. -/
theorem rankOf_le_add (task task' : Task κ θ) :
    K.rankOf task' ≤ K.rankOf task + K.bound * true.toNat := by
  have := K.rankOf_le task'
  simp only [Bool.toNat_true, Nat.mul_one]
  omega

/-- An instruction brings its thread nearer to the end, and the other steps do not take a thread
away from it unless they put it on a CPU. -/
theorem rank_step {e : Workload.Event ι κ θ α} (h : P.Linked w u)
    (hs : (W.system ι).step w e = some w') (i : ι) :
    (isExec i e).toNat + K.rankOf (w'.task i) ≤
      K.rankOf (w.task i) + K.bound * (isPutOn i e).toNat := by
  by_cases hi : e.thread = i
  · subst hi
    cases e with
    | start i c th =>
        obtain rfl := Option.some.inj hs
        simpa [Workload.Event.thread, Workload.setTask, isExec, isPutOn] using
          K.rankOf_le_add (w.task i) _
    | exec i =>
        obtain ⟨c, th, ⟨th', m'⟩, hrun, hstep, rfl⟩ := execute_eq hs
        have hlt : K.rank c th' < K.rank c th := by
          have htracks := h.tracks i
          rw [hrun] at htracks
          generalize u.phase i = p at htracks
          cases htracks with
          | early hearly _ => exact K.rank_early hearly h.rep hstep
          | late hlate _ => exact K.rank_late hlate hstep
        simp only [Workload.Event.thread, isExec, isPutOn, beq_self_eq_true, Function.update_self,
          hrun, rankOf, Bool.toNat_true, Bool.toNat_false]
        omega
    | preempt i =>
        obtain ⟨c, th, hrun, rfl⟩ := takeOff_eq hs
        simp [Workload.Event.thread, Workload.setTask, isExec, isPutOn, rankOf]
    | resume i cpu =>
        obtain ⟨c, th, hwait, rfl⟩ := putOn_eq hs
        simpa [Workload.Event.thread, Workload.setTask, isExec, isPutOn] using
          K.rankOf_le_add (w.task i) _
    | finish i a =>
        obtain rfl := Option.some.inj hs
        simp [Workload.Event.thread, Workload.setTask, isExec, isPutOn, rankOf]
  · rw [task_of_ne hs (Ne.symm hi)]
    have hexec : isExec i e = false := by
      cases e with
      | exec j => exact beq_false_of_ne hi
      | _ => rfl
    rw [hexec]
    simp

theorem rank_run {es : List (Workload.Event ι κ θ α)} (r : (W.system ι).Run w es w')
    (h : P.Linked w u) (i : ι) :
    es.countP (isExec i) + K.rankOf (w'.task i) ≤
      K.rankOf (w.task i) + K.bound * es.countP (isPutOn i) := by
  induction r generalizing u with
  | refl w => simp
  | @more w w₁ w' e es ha hs _ ih =>
      obtain ⟨_, u', -, -, hlinked⟩ := matched_step h ha hs
      have hfirst := K.rank_step h hs i
      have hrest := ih hlinked
      have hcount : ∀ p : Workload.Event ι κ θ α → Bool,
          (e :: es).countP p = es.countP p + (p e).toNat := fun p => by
        rw [List.countP_cons]
        cases p e <;> rfl
      rw [hcount, hcount, Nat.mul_add]
      omega

/-- **Progress.**  A thread that runs has a next instruction or is at the end of its code, and the
instructions it has executed are at most `bound` for each time it began a call or was put on a CPU
again. -/
theorem progress {m : μ} {es : List (Workload.Event ι κ θ α)}
    (r : (W.system ι).Run (Workload.rest m) es w) (hr : W.Rep m t) (i : ι) :
    es.countP (isExec i) ≤ K.bound * es.countP (isPutOn i) ∧
      ∀ c th, w.task i = .running c th → W.Ended c th ∨
        ∃ w', (W.system ι).step w (.exec i) = some w' := by
  refine ⟨?_, fun c th hrun => ?_⟩
  · have hle := K.rank_run r (linked_rest hr) i
    have hzero : K.rankOf ((Workload.rest m : Tasks ι κ θ μ).task i) = 0 := rfl
    omega
  · obtain ⟨_, u, -, -, hlinked⟩ := P.refines r hr
    have htracks := hlinked.tracks i
    rw [hrun] at htracks
    by_cases hended : W.Ended c th
    · exact .inl hended
    · obtain ⟨q, hq⟩ : ∃ q, W.step c w.mem th = some q := by
        refine K.defined ?_ hended
        generalize u.phase i = p at htracks
        cases htracks with
        | early hearly _ => exact .inl hearly
        | late hlate _ => exact .inr ⟨_, _, hlate⟩
      have hexec : (Workload.execute W w i).isSome := by
        simp only [Workload.execute, hrun, hq, Option.map_some, Option.isSome_some]
      exact .inr (Option.isSome_iff_exists.mp hexec)

end Ranking

end Protocol

end TieredAllocator.Lib
