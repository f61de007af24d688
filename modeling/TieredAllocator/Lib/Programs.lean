import Mathlib.Tactic
import TieredAllocator.Lib.Runs

/-!
# Library — programs of atomic actions

A `Prog` is a program that does atomic actions one after the other and computes in between.  A
`Machine` lets any number of threads run programs over one shared state: a thread begins a call,
does its actions, of which each is one step, and returns; between its steps the other threads and
the clients take theirs.  What an action meets outside the state (`E`) is chosen at each step.

Each thread carries a ghost, begun with the call and updated by `track` from the answers its
actions got; no step depends on it.  `wp` is the precondition calculus for one thread over its
ghost.  `Sound` collects what is to be shown of the single steps against an invariant of the
state and the ghosts; from it the invariant holds after each run of the machine, no action is ever
undefined, and each running thread still meets its `wp` (`Sound.run`).  A program run alone
(`Prog.exec`) ends with its postcondition (`Prog.exec_spec`), and a call made while the other
threads pause (`Machine.alone`) is a run of the machine (`Machine.alone_run`).
-/

namespace TieredAllocator.Lib

/-- A program: it has returned, or it does an action and goes on with the answer. -/
inductive Prog (A : Type) (R : A → Type) (β : Type) where
  | done (v : β)
  | act (a : A) (k : R a → Prog A R β)

namespace Prog

variable {A E σ G β δ : Type} {R : A → Type}

def bind : Prog A R β → (β → Prog A R δ) → Prog A R δ
  | .done v, f => f v
  | .act a k, f => .act a fun r => (k r).bind f

instance : Monad (Prog A R) where
  pure := .done
  bind := bind

@[simp] theorem pure_eq (v : β) : (pure v : Prog A R β) = .done v := rfl

@[simp] theorem done_bind (v : β) (f : β → Prog A R δ) : (Prog.done v >>= f) = f v := rfl

instance : LawfulMonad (Prog A R) :=
  LawfulMonad.mk' _
    (fun p => by
      show p.bind (fun v => .done v) = p
      induction p with
      | done v => rfl
      | act a k ih => exact congrArg (Prog.act a) (funext ih))
    (fun _ _ => rfl)
    (fun p f g => by
      show (p.bind f).bind g = p.bind fun v => (f v).bind g
      induction p with
      | done v => rfl
      | act a k ih => exact congrArg (Prog.act a) (funext ih))

/-- One action. -/
def perform (a : A) : Prog A R (R a) := .act a .done

/-- Runs the program alone; `env i` is what its `i`-th action meets. -/
def exec (perform : E → σ → (a : A) → Option (R a × σ)) :
    Prog A R β → (env : Nat → E) → σ → Option (β × σ)
  | .done v, _, s => some (v, s)
  | .act a k, env, s =>
      (perform (env 0) s a).bind fun r => (k r.1).exec perform (fun i => env (i + 1)) r.2

variable {run : E → σ → (a : A) → Option (R a × σ)} {s : σ}

theorem exec_done (v : β) (env : Nat → E) :
    (Prog.done v : Prog A R β).exec run env s = some (v, s) := rfl

theorem exec_perform_bind (a : A) (f : R a → Prog A R δ) (env : Nat → E) :
    (perform a >>= f).exec run env s =
      (run (env 0) s a).bind fun r => (f r.1).exec run (fun i => env (i + 1)) r.2 := rfl

/-- Sequencing, where each action meets the same. -/
theorem exec_bind (p : Prog A R β) (f : β → Prog A R δ) (e : E) :
    (p >>= f).exec run (fun _ => e) s =
      (p.exec run (fun _ => e) s).bind fun r => (f r.1).exec run (fun _ => e) r.2 := by
  induction p generalizing s with
  | done v => rfl
  | act a k ih =>
      show ((run e s a).bind fun r => (k r.1 >>= f).exec run (fun _ => e) r.2) =
        ((run e s a).bind fun r => (k r.1).exec run (fun _ => e) r.2).bind _
      rw [Option.bind_assoc]
      exact Option.bind_congr fun r _ => ih r.1

/-- What each action keeps, the program keeps. -/
theorem exec_keeps {J : σ → Prop}
    (hJ : ∀ {e s a r s'}, J s → run e s a = some (r, s') → J s') {p : Prog A R β} {env : Nat → E}
    {v : β} {s' : σ} (h : p.exec run env s = some (v, s')) (hs : J s) : J s' := by
  induction p generalizing s env with
  | done w => exact (Prod.mk.inj (Option.some.inj h)).2 ▸ hs
  | act a k ih =>
      obtain ⟨r, hr, h⟩ := Option.bind_eq_some_iff.mp h
      exact ih r.1 h (hJ hs hr)

/-- Each result of the program satisfies `φ`, whatever the answers. -/
def Returns (φ : β → Prop) : Prog A R β → Prop
  | .done v => φ v
  | .act _ k => ∀ r, (k r).Returns φ

theorem Returns.bind {φ : β → Prop} {ψ : δ → Prop} {p : Prog A R β} {f : β → Prog A R δ}
    (hp : p.Returns φ) (hf : ∀ v, φ v → (f v).Returns ψ) : (p >>= f).Returns ψ := by
  induction p with
  | done v => exact hf v hp
  | act a k ih => exact fun r => ih r (hp r)

theorem returns_true (p : Prog A R β) : p.Returns fun _ => True := by
  induction p with
  | done v => trivial
  | act a k ih => exact ih

theorem Returns.exec {φ : β → Prop} {p : Prog A R β} {v : β} {s' : σ} {env : Nat → E}
    (hp : p.Returns φ) (h : p.exec run env s = some (v, s')) : φ v := by
  induction p generalizing s env with
  | done w => exact (Prod.mk.inj (Option.some.inj h)).1 ▸ hp
  | act a k ih =>
      obtain ⟨r, -, h⟩ := Option.bind_eq_some_iff.mp h
      exact ih r.1 (hp r.1) h

/-- Each action of the program satisfies `φ`, whatever the answers. -/
def All (φ : A → Prop) : Prog A R β → Prop
  | .done _ => True
  | .act a k => φ a ∧ ∀ r, (k r).All φ

theorem All.bind {φ : A → Prop} {p : Prog A R β} {f : β → Prog A R δ} (hp : p.All φ)
    (hf : ∀ v, (f v).All φ) : (p >>= f).All φ := by
  induction p with
  | done v => exact hf v
  | act a k ih => exact ⟨hp.1, fun r => ih r (hp.2 r)⟩

theorem All.mono {φ ψ : A → Prop} {p : Prog A R β} (hp : p.All φ) (h : ∀ a, φ a → ψ a) :
    p.All ψ := by
  induction p with
  | done v => trivial
  | act a k ih => exact ⟨h a hp.1, fun r => ih r (hp.2 r)⟩

theorem All.ite {φ : A → Prop} {P : Prop} [Decidable P] {p q : Prog A R β} (hp : P → p.All φ)
    (hq : ¬ P → q.All φ) : (if P then p else q).All φ := by
  split
  · exact hp ‹_›
  · exact hq ‹_›

/-- The actions the program does when it runs alone, in order. -/
def actions (perform : E → σ → (a : A) → Option (R a × σ)) :
    Prog A R β → (env : Nat → E) → σ → List A
  | .done _, _, _ => []
  | .act a k, env, s => a :: (perform (env 0) s a).elim [] fun r =>
      (k r.1).actions perform (fun i => env (i + 1)) r.2

theorem All.actions {φ : A → Prop} {p : Prog A R β} (hp : p.All φ) {env : Nat → E} :
    ∀ a ∈ p.actions run env s, φ a := by
  induction p generalizing s env with
  | done v => exact fun a ha => absurd ha List.not_mem_nil
  | act a k ih =>
      intro b hb
      rw [Prog.actions, List.mem_cons] at hb
      rcases hb with rfl | hb
      · exact hp.1
      · cases hr : run (env 0) s a with
        | none =>
            rw [hr] at hb
            cases hb
        | some r =>
            rw [hr] at hb
            exact ih _ (hp.2 _) b hb

/-- The program, run alone where each action meets `e`, does the actions `as` and returns. -/
structure Ran (run : E → σ → (a : A) → Option (R a × σ)) (p : Prog A R β) (e : E) (s : σ)
    (as : List A) (v : β) (s' : σ) : Prop where
  result : p.exec run (fun _ => e) s = some (v, s')
  did : p.actions run (fun _ => e) s = as

namespace Ran

variable {p : Prog A R β} {f : β → Prog A R δ} {e : E} {s₁ s' : σ} {as bs : List A} {v : β} {w : δ}

theorem done (v : β) : (Prog.done v : Prog A R β).Ran run e s [] v s := ⟨rfl, rfl⟩

theorem act {a : A} {k : R a → Prog A R β} {r : R a} (h : run e s a = some (r, s₁))
    (hk : (k r).Ran run e s₁ as v s') : (Prog.act a k).Ran run e s (a :: as) v s' where
  result := by
    rw [Prog.exec, h]
    exact hk.result
  did := by
    rw [Prog.actions, h]
    exact congrArg (List.cons a) hk.did

/-- An action, and what is done with its answer. -/
theorem perform_bind {a : A} {f : R a → Prog A R δ} {r : R a} (h : run e s a = some (r, s₁))
    (hf : (f r).Ran run e s₁ as w s') : (perform a >>= f).Ran run e s (a :: as) w s' :=
  act h hf

theorem bind (hp : p.Ran run e s as v s₁) (hf : (f v).Ran run e s₁ bs w s') :
    (p >>= f).Ran run e s (as ++ bs) w s' := by
  induction p generalizing s as with
  | done x =>
      obtain ⟨hres, rfl⟩ := hp
      obtain ⟨rfl, rfl⟩ := Prod.mk.inj (Option.some.inj hres)
      exact hf
  | act a k ih =>
      obtain ⟨hres, rfl⟩ := hp
      obtain ⟨⟨r, s₂⟩, hr, hrest⟩ := Option.bind_eq_some_iff.mp hres
      have hk := ih r ⟨hrest, rfl⟩
      rw [Prog.actions, show run e s a = some (r, s₂) from hr, Option.elim, List.cons_append]
      exact act hr hk

end Ran

/-! ### Preconditions -/

/-- What a thread needs for an action, what it may rely on of the answer, and the ghost. -/
structure Rules (A : Type) (R : A → Type) (G : Type) where
  pre : G → A → Prop
  ans : G → (a : A) → R a → Prop
  track : G → (a : A) → R a → G

/-- From the ghost `g` each action of the program has what it needs, and the program returns only
with `Q`, as long as the answers can be relied on. -/
def wp (ℛ : Rules A R G) (Q : G → β → Prop) : Prog A R β → G → Prop
  | .done v, g => Q g v
  | .act a k, g => ℛ.pre g a ∧ ∀ r, ℛ.ans g a r → (k r).wp ℛ Q (ℛ.track g a r)

variable {ℛ : Rules A R G} {Q Q' : G → β → Prop} {g : G}

@[simp] theorem wp_done {v : β} : (Prog.done v : Prog A R β).wp ℛ Q g ↔ Q g v := Iff.rfl

@[simp] theorem wp_act {a : A} {k : R a → Prog A R β} : (Prog.act a k).wp ℛ Q g ↔
    ℛ.pre g a ∧ ∀ r, ℛ.ans g a r → (k r).wp ℛ Q (ℛ.track g a r) := Iff.rfl

@[simp] theorem wp_perform {a : A} {Q : G → R a → Prop} : (perform a : Prog A R (R a)).wp ℛ Q g ↔
    ℛ.pre g a ∧ ∀ r, ℛ.ans g a r → Q (ℛ.track g a r) r := Iff.rfl

theorem wp_mono {p : Prog A R β} (h : p.wp ℛ Q g) (hQ : ∀ g v, Q g v → Q' g v) : p.wp ℛ Q' g := by
  induction p generalizing g with
  | done v => exact hQ g v h
  | act a k ih => exact ⟨h.1, fun r hr => ih r (h.2 r hr)⟩

/-- Sequencing. -/
theorem wp_bind {p : Prog A R β} {f : β → Prog A R δ} {Q : G → δ → Prop} :
    (p >>= f).wp ℛ Q g ↔ p.wp ℛ (fun g v => (f v).wp ℛ Q g) g := by
  induction p generalizing g with
  | done v => exact Iff.rfl
  | act a k ih => exact and_congr_right fun _ => forall₂_congr fun r _ => ih r

/-- Sequencing, with the condition in between stated. -/
theorem wp_seq {p : Prog A R β} {f : β → Prog A R δ} {P : G → β → Prop} {Q : G → δ → Prop}
    (hp : p.wp ℛ P g) (hf : ∀ g v, P g v → (f v).wp ℛ Q g) : (p >>= f).wp ℛ Q g :=
  wp_bind.mpr (wp_mono hp hf)

/-- What holds of each action may be asked for beforehand. -/
theorem wp_all {φ : A → Prop} {p : Prog A R β} (h : p.wp ℛ Q g) (hall : p.All φ) :
    p.wp ⟨fun g a => ℛ.pre g a ∧ φ a, ℛ.ans, ℛ.track⟩ Q g := by
  induction p generalizing g with
  | done v => exact h
  | act a k ih => exact ⟨⟨h.1, hall.1⟩, fun r hr => ih r (h.2 r hr) (hall.2 r)⟩

/-- **A program alone** returns with its postcondition, and keeps what each action keeps. -/
theorem exec_spec {J : σ → G → Prop}
    (hJ : ∀ {s g a} (e : E), J s g → ℛ.pre g a →
      ∃ r s', run e s a = some (r, s') ∧ ℛ.ans g a r ∧ J s' (ℛ.track g a r))
    {p : Prog A R β} (hwp : p.wp ℛ Q g) (hs : J s g) (env : Nat → E) :
    ∃ v s' g', p.exec run env s = some (v, s') ∧ J s' g' ∧ Q g' v := by
  induction p generalizing s g env with
  | done v => exact ⟨v, s, g, rfl, hs, hwp⟩
  | act a k ih =>
      obtain ⟨hpre, hk⟩ := hwp
      obtain ⟨r, s₁, hr, hans, hJ₁⟩ := hJ (env 0) hs hpre
      obtain ⟨v, s', g', hv, hJ', hQ⟩ := ih r (hk r hans) hJ₁ fun i => env (i + 1)
      refine ⟨v, s', g', ?_, hJ', hQ⟩
      rw [exec, hr]
      exact hv

end Prog

/-! ### Threads -/

/-- A thread runs no call, or call `c` with ghost `g` and `p` left to do. -/
inductive Thread (C : Type) (B : C → Type) (A : Type) (R : A → Type) (G : Type) where
  | idle
  | busy (c : C) (g : G) (p : Prog A R (B c))

def Thread.ghost {C A G : Type} {B : C → Type} {R : A → Type} : Thread C B A R G → Option G
  | .idle => none
  | .busy _ g _ => some g

/-- Calls `C` with results `B`, actions `A` with answers `R`, clients' own steps `W`, the state
`σ` and the ghost `G`. -/
structure Machine (C : Type) (B : C → Type) (A : Type) (R : A → Type) (E W σ G : Type) where
  program : (c : C) → Prog A R (B c)
  perform : E → σ → (a : A) → Option (R a × σ)
  /-- what the client gives away with the call, if it may make it -/
  begin : σ → C → Option (G × σ)
  /-- what the client gets with the result -/
  finish : σ → (c : C) → B c → σ
  client : σ → W → Option σ
  track : G → (a : A) → R a → G

/-- A step, and the thread that takes it. -/
inductive Step (ι C E W : Type) where
  | start (t : ι) (c : C)
  | act (t : ι) (e : E)
  | finish (t : ι)
  | client (w : W)

structure Config (ι C : Type) (B : C → Type) (A : Type) (R : A → Type) (σ G : Type) where
  state : σ
  threads : ι → Thread C B A R G

namespace Machine

variable {ι C A E W σ G : Type} {B : C → Type} {R : A → Type} [DecidableEq ι]
  (M : Machine C B A R E W σ G)

/-- The label fits the thread that is to take the step. -/
def enabled (u : Config ι C B A R σ G) : Step ι C E W → Bool
  | .start t c => match u.threads t with
      | .idle => (M.begin u.state c).isSome
      | .busy _ _ _ => false
  | .act t _ => match u.threads t with
      | .busy _ _ (.act _ _) => true
      | _ => false
  | .finish t => match u.threads t with
      | .busy _ _ (.done _) => true
      | _ => false
  | .client w => (M.client u.state w).isSome

def step (u : Config ι C B A R σ G) : Step ι C E W → Option (Config ι C B A R σ G)
  | .start t c => match u.threads t with
      | .idle => (M.begin u.state c).map fun r =>
          ⟨r.2, Function.update u.threads t (.busy c r.1 (M.program c))⟩
      | .busy _ _ _ => none
  | .act t e => match u.threads t with
      | .busy c g (.act a k) => (M.perform e u.state a).map fun r =>
          ⟨r.2, Function.update u.threads t (.busy c (M.track g a r.1) (k r.1))⟩
      | _ => none
  | .finish t => match u.threads t with
      | .busy c _ (.done v) => some ⟨M.finish u.state c v, Function.update u.threads t .idle⟩
      | _ => none
  | .client w => (M.client u.state w).map fun s => ⟨s, u.threads⟩

/-- The runs of the threads `ι`. -/
def system (ι : Type) [DecidableEq ι] : System (Config ι C B A R σ G) (Step ι C E W) where
  allowed u l := M.enabled u l = true
  step u l := M.step u l

instance (u : Config ι C B A R σ G) (l : Step ι C E W) : Decidable ((M.system ι).allowed u l) :=
  inferInstanceAs (Decidable (M.enabled u l = true))

/-- All threads idle. -/
def rest (s : σ) : Config ι C B A R σ G := ⟨s, fun _ => .idle⟩

variable {M}

theorem enabled_start {u : Config ι C B A R σ G} {t : ι} {c : C}
    (h : (M.system ι).allowed u (.start t c)) :
    u.threads t = .idle ∧ ∃ g s, M.begin u.state c = some (g, s) := by
  simp only [system, enabled] at h
  cases ht : u.threads t with
  | idle =>
      rw [ht] at h
      obtain ⟨⟨g, s⟩, hb⟩ := Option.isSome_iff_exists.mp h
      exact ⟨rfl, g, s, hb⟩
  | busy c g p => simp [ht] at h

theorem enabled_act {u : Config ι C B A R σ G} {t : ι} {e : E}
    (h : (M.system ι).allowed u (.act t e)) :
    ∃ c g a k, u.threads t = .busy c g (.act a k) := by
  simp only [system, enabled] at h
  split at h
  · exact ⟨_, _, _, _, ‹_›⟩
  · cases h

theorem enabled_finish {u : Config ι C B A R σ G} {t : ι}
    (h : (M.system ι).allowed u (.finish t)) : ∃ c g v, u.threads t = .busy c g (.done v) := by
  simp only [system, enabled] at h
  split at h
  · exact ⟨_, _, _, ‹_›⟩
  · cases h

/-- An idle thread may begin what `begin` grants. -/
theorem start_eq {u : Config ι C B A R σ G} {t : ι} {c : C} {g : G} {s : σ}
    (ht : u.threads t = .idle) (hb : M.begin u.state c = some (g, s)) :
    (M.system ι).allowed u (.start t c) ∧ (M.system ι).step u (.start t c) =
      some ⟨s, Function.update u.threads t (.busy c g (M.program c))⟩ := by
  constructor
  · simp only [system, enabled, ht, hb, Option.isSome_some]
  · simp only [system, step, ht, hb, Option.map_some]

/-- A thread does its next action. -/
theorem act_eq {u : Config ι C B A R σ G} {t : ι} {c : C} {g : G} {a : A}
    {k : R a → Prog A R (B c)} {e : E} {r : R a} {s : σ} (ht : u.threads t = .busy c g (.act a k))
    (hr : M.perform e u.state a = some (r, s)) :
    (M.system ι).allowed u (.act t e) ∧ (M.system ι).step u (.act t e) =
      some ⟨s, Function.update u.threads t (.busy c (M.track g a r) (k r))⟩ := by
  constructor
  · simp only [system, enabled, ht]
  · simp only [system, step, ht, hr, Option.map_some]

/-- A thread with nothing left to do returns. -/
theorem finish_eq {u : Config ι C B A R σ G} {t : ι} {c : C} {g : G} {v : B c}
    (ht : u.threads t = .busy c g (.done v)) :
    (M.system ι).allowed u (.finish t) ∧ (M.system ι).step u (.finish t) =
      some ⟨M.finish u.state c v, Function.update u.threads t .idle⟩ := by
  constructor
  · simp only [system, enabled, ht]
  · simp only [system, step, ht]

/-- What an action did. -/
theorem step_act {u u' : Config ι C B A R σ G} {t : ι} {e : E}
    (h : (M.system ι).step u (.act t e) = some u') :
    ∃ c g a k r s, u.threads t = .busy c g (.act a k) ∧ M.perform e u.state a = some (r, s) ∧
      u' = ⟨s, Function.update u.threads t (.busy c (M.track g a r) (k r))⟩ := by
  simp only [system, step] at h
  split at h
  · rename_i c g a k ht
    obtain ⟨⟨r, s⟩, hr, rfl⟩ := Option.map_eq_some_iff.mp h
    exact ⟨c, g, a, k, r, s, ht, hr, rfl⟩
  · cases h

/-- What the start of a call did. -/
theorem step_start {u u' : Config ι C B A R σ G} {t : ι} {c : C}
    (h : (M.system ι).step u (.start t c) = some u') :
    u.threads t = .idle ∧ ∃ g s, M.begin u.state c = some (g, s) ∧
      u' = ⟨s, Function.update u.threads t (.busy c g (M.program c))⟩ := by
  simp only [system, step] at h
  split at h
  · rename_i ht
    obtain ⟨⟨g, s⟩, hb, rfl⟩ := Option.map_eq_some_iff.mp h
    exact ⟨ht, g, s, hb, rfl⟩
  · cases h

/-- What the return of a call did. -/
theorem step_finish {u u' : Config ι C B A R σ G} {t : ι}
    (h : (M.system ι).step u (.finish t) = some u') : ∃ c g v, u.threads t = .busy c g (.done v) ∧
      u' = ⟨M.finish u.state c v, Function.update u.threads t .idle⟩ := by
  simp only [system, step] at h
  split at h
  · rename_i c g v ht
    exact ⟨c, g, v, ht, (Option.some.inj h).symm⟩
  · cases h

/-! ### Soundness -/

/-- What the steps owe to the invariant `I` of the state and the ghosts: a call begins with the
precondition of its program, an action that has what it needs is defined and gives an answer that
can be relied on, and a result with its postcondition may be returned. -/
structure Sound (M : Machine C B A R E W σ G) (ι : Type) [DecidableEq ι]
    (pre : G → A → Prop) (ans : G → (a : A) → R a → Prop) (Q : (c : C) → G → B c → Prop)
    (I : σ → (ι → Option G) → Prop) : Prop where
  begin : ∀ {s γ t c g s'}, I s γ → γ t = none → M.begin s c = some (g, s') →
    I s' (Function.update γ t (some g)) ∧ (M.program c).wp ⟨pre, ans, M.track⟩ (Q c) g
  perform : ∀ {s γ t g a} (e : E), I s γ → γ t = some g → pre g a →
    ∃ r s', M.perform e s a = some (r, s') ∧ ans g a r ∧
      I s' (Function.update γ t (some (M.track g a r)))
  finish : ∀ {s γ t g c v}, I s γ → γ t = some g → Q c g v →
    I (M.finish s c v) (Function.update γ t none)
  client : ∀ {s γ w s'}, I s γ → M.client s w = some s' → I s' γ

/-- The ghosts of the threads. -/
def ghosts (u : Config ι C B A R σ G) (t : ι) : Option G := (u.threads t).ghost

/-- The invariant holds, and each running thread meets the precondition of what it has left. -/
def Ok (M : Machine C B A R E W σ G) (pre : G → A → Prop) (ans : G → (a : A) → R a → Prop)
    (Q : (c : C) → G → B c → Prop) (I : σ → (ι → Option G) → Prop)
    (u : Config ι C B A R σ G) : Prop :=
  I u.state (ghosts u) ∧ ∀ t c g p, u.threads t = .busy c g p → p.wp ⟨pre, ans, M.track⟩ (Q c) g

variable {pre : G → A → Prop} {ans : G → (a : A) → R a → Prop} {Q : (c : C) → G → B c → Prop}
  {I : σ → (ι → Option G) → Prop} {u u' : Config ι C B A R σ G} {l : Step ι C E W}

theorem ghosts_update (u : Config ι C B A R σ G) (s : σ) (t : ι) (th : Thread C B A R G) :
    ghosts ⟨s, Function.update u.threads t th⟩ = Function.update (ghosts u) t th.ghost := by
  funext t'
  by_cases h : t' = t
  · subst h; simp [ghosts]
  · simp [ghosts, h]

omit [DecidableEq ι] in
theorem ok_rest {s : σ} (h : I s fun _ => none) : Ok M pre ans Q I (rest s) :=
  ⟨h, fun _ _ _ _ h => by cases h⟩

/-- The thread `t` goes on as `th`, the others as before. -/
theorem Ok.update (hok : Ok M pre ans Q I u) {s : σ} {t : ι} {th : Thread C B A R G}
    (hI : I s (Function.update (ghosts u) t th.ghost))
    (hth : ∀ c g p, th = .busy c g p → p.wp ⟨pre, ans, M.track⟩ (Q c) g) :
    Ok M pre ans Q I ⟨s, Function.update u.threads t th⟩ := by
  refine ⟨by rw [ghosts_update]; exact hI, fun t' c g p h => ?_⟩
  replace h : Function.update u.threads t th t' = .busy c g p := h
  by_cases ht : t' = t
  · subst ht
    rw [Function.update_self] at h
    exact hth c g p h
  · rw [Function.update_of_ne ht] at h
    exact hok.2 t' c g p h

/-- **One step** is defined and keeps the invariant. -/
theorem Sound.step (hs : Sound M ι pre ans Q I) (hok : Ok M pre ans Q I u)
    (hl : (M.system ι).allowed u l) :
    ∃ u', (M.system ι).step u l = some u' ∧ Ok M pre ans Q I u' := by
  have hghost : ∀ {t th}, u.threads t = th → ghosts u t = th.ghost := fun h => by
    rw [ghosts, h]
  cases l with
  | start t c =>
      obtain ⟨ht, g, s, hb⟩ := enabled_start hl
      obtain ⟨hI, hwp⟩ := hs.begin hok.1 (hghost ht) hb
      refine ⟨_, (start_eq ht hb).2, hok.update hI ?_⟩
      rintro c' g' p' ⟨⟩
      exact hwp
  | act t e =>
      obtain ⟨c, g, a, k, ht⟩ := enabled_act hl
      obtain ⟨hpre, hk⟩ := hok.2 t c g _ ht
      obtain ⟨r, s, hr, hans, hI⟩ := hs.perform e hok.1 (hghost ht) hpre
      refine ⟨_, (act_eq ht hr).2, hok.update hI ?_⟩
      rintro c' g' p' ⟨⟩
      exact hk r hans
  | finish t =>
      obtain ⟨c, g, v, ht⟩ := enabled_finish hl
      have hQ : Q c g v := hok.2 t c g _ ht
      exact ⟨_, (finish_eq ht).2,
        hok.update (hs.finish hok.1 (hghost ht) hQ) fun _ _ _ h => by cases h⟩
  | client w =>
      obtain ⟨s, hw⟩ := Option.isSome_iff_exists.mp hl
      exact ⟨⟨s, u.threads⟩, by simp only [system, Machine.step, hw, Option.map_some],
        hs.client hok.1 hw, hok.2⟩

/-- **Runs.**  The invariant holds after each run of any threads in any order. -/
theorem Sound.run (hs : Sound M ι pre ans Q I) {ls : List (Step ι C E W)}
    (r : (M.system ι).Run u ls u') (hok : Ok M pre ans Q I u) : Ok M pre ans Q I u' := by
  refine r.invariant (fun hok ha h => ?_) hok
  obtain ⟨v, hv, hok'⟩ := hs.step hok ha
  rwa [Option.some.inj (hv.symm.trans h)] at hok'

/-- What a thread has left meets the stronger rules `φ`, as long as it begins no other call. -/
theorem Sound.run_rules (hs : Sound M ι pre ans Q I) {φ : G → A → Prop}
    (hpre : ∀ g a, φ g a → pre g a) {t : ι} {ls : List (Step ι C E W)}
    (r : (M.system ι).Run u ls u') (hok : Ok M pre ans Q I u) (hls : ∀ c, Step.start t c ∉ ls)
    (ht : ∀ c g p, u.threads t = .busy c g p → p.wp ⟨φ, ans, M.track⟩ (Q c) g) :
    Ok M pre ans Q I u' ∧
      ∀ c g p, u'.threads t = .busy c g p → p.wp ⟨φ, ans, M.track⟩ (Q c) g := by
  induction r with
  | refl u => exact ⟨hok, ht⟩
  | @more u v u' l ls hl h _ ih =>
      obtain ⟨w, hw, hok'⟩ := hs.step hok hl
      obtain rfl := Option.some.inj (h.symm.trans hw)
      refine ih hok' (fun c hc => hls c (List.mem_cons_of_mem _ hc)) fun c g p hp => ?_
      -- a step of another thread leaves what `t` has left
      have hother : ∀ {t' th s}, t' ≠ t → v = ⟨s, Function.update u.threads t' th⟩ →
          p.wp ⟨φ, ans, M.track⟩ (Q c) g := by
        rintro t' th s hne rfl
        refine ht c g p ?_
        rw [← hp]
        exact (Function.update_of_ne (Ne.symm hne) _ _).symm
      cases l with
      | start t' c' =>
          obtain ⟨-, g', s, -, hv⟩ := step_start h
          refine hother (fun e => hls c' ?_) hv
          rw [e]
          exact List.mem_cons_self
      | finish t' =>
          obtain ⟨c', g', x, -, hv⟩ := step_finish h
          by_cases htt : t' = t
          · subst htt
            rw [hv] at hp
            exact absurd ((Function.update_self ..).symm.trans hp) (by simp)
          · exact hother htt hv
      | act t' e =>
          obtain ⟨c', g', a, k, x, s, hbusy, hx, hv⟩ := step_act h
          by_cases htt : t' = t
          · subst htt
            obtain ⟨hpa, hk⟩ := ht c' g' _ hbusy
            obtain ⟨x', s', hx', hans, -⟩ :=
              hs.perform e hok.1 (show ghosts u t' = some g' by rw [ghosts, hbusy]; rfl)
                (hpre g' a hpa)
            obtain ⟨rfl, rfl⟩ := Prod.mk.inj (Option.some.inj (hx.symm.trans hx'))
            rw [hv] at hp
            have hrest : Function.update u.threads t' (.busy c' (M.track g' a x) (k x)) t' =
                .busy c g p := hp
            rw [Function.update_self] at hrest
            cases hrest
            exact hk x hans
          · exact hother htt hv
      | client w =>
          refine ht c g p ?_
          obtain ⟨s, -, rfl⟩ := Option.map_eq_some_iff.mp
            (show (M.client u.state w).map (fun s => (⟨s, u.threads⟩ : Config ι C B A R σ G)) =
              some v from h)
          exact hp

/-! ### Calls made alone -/

/-- The call from its beginning to its end, while the other threads pause. -/
def alone (M : Machine C B A R E W σ G) (env : Nat → E) (s : σ) (c : C) : Option (B c × σ) :=
  (M.begin s c).bind fun r =>
    ((M.program c).exec M.perform env r.2).map fun q => (q.1, M.finish q.2 c q.1)

/-- The steps of one thread that runs its program alone. -/
theorem exec_run {c : C} {p : Prog A R (B c)} {env : Nat → E} {s s' : σ} {v : B c} {g : G} {t : ι}
    {θ : ι → Thread C B A R G} (h : p.exec M.perform env s = some (v, s')) :
    ∃ ls g', (M.system ι).Run ⟨s, Function.update θ t (.busy c g p)⟩ ls
      ⟨s', Function.update θ t (.busy c g' (.done v))⟩ := by
  induction p generalizing s g env with
  | done w =>
      obtain ⟨rfl, rfl⟩ := Prod.mk.inj (Option.some.inj h)
      exact ⟨[], g, .refl _⟩
  | act a k ih =>
      obtain ⟨⟨r, s₁⟩, hr, hrest⟩ := Option.bind_eq_some_iff.mp h
      obtain ⟨ls, g', hrun⟩ := ih r (g := M.track g a r) hrest
      obtain ⟨hallowed, hstep⟩ := act_eq (M := M)
        (u := ⟨s, Function.update θ t (.busy c g (.act a k))⟩) (Function.update_self ..) hr
      rw [Function.update_idem] at hstep
      exact ⟨.act t (env 0) :: ls, g', .more hallowed hstep hrun⟩

/-- A call of an idle thread, made alone, is a run. -/
theorem alone_run {c : C} {env : Nat → E} {s' : σ} {v : B c} {t : ι} (ht : u.threads t = .idle)
    (h : M.alone env u.state c = some (v, s')) :
    ∃ ls, (M.system ι).Run u ls ⟨s', u.threads⟩ := by
  obtain ⟨⟨g, s⟩, hb, h⟩ := Option.bind_eq_some_iff.mp h
  obtain ⟨⟨w, s₁⟩, hexec, h⟩ := Option.map_eq_some_iff.mp h
  obtain ⟨rfl, rfl⟩ := Prod.mk.inj h
  obtain ⟨ls, g', hrun⟩ := exec_run (g := g) (t := t) (θ := u.threads) hexec
  have hend : Function.update u.threads t .idle = u.threads := by rw [← ht, Function.update_eq_self]
  obtain ⟨hstart, hbegun⟩ := start_eq ht hb
  obtain ⟨hfinish, hended⟩ := finish_eq (M := M)
    (u := ⟨s₁, Function.update u.threads t (.busy c g' (.done w))⟩) (Function.update_self ..)
  rw [Function.update_idem, hend] at hended
  exact ⟨.start t c :: (ls ++ [.finish t]),
    .more hstart hbegun (hrun.append (.one hfinish hended))⟩

/-- A call made alone is defined, keeps the invariant, and ends with its postcondition. -/
theorem Sound.alone (hs : Sound M ι pre ans Q I) {s s₁ : σ} {γ : ι → Option G} {t : ι} {c : C}
    {g : G} (hI : I s γ) (ht : γ t = none) (hb : M.begin s c = some (g, s₁)) (env : Nat → E) :
    ∃ v s', M.alone env s c = some (v, s') ∧ I s' γ := by
  obtain ⟨hI₁, hwp⟩ := hs.begin hI ht hb
  have hJ : ∀ {s' g' a} (e : E), I s' (Function.update γ t (some g')) → pre g' a →
      ∃ r s'', M.perform e s' a = some (r, s'') ∧ ans g' a r ∧
        I s'' (Function.update γ t (some (M.track g' a r))) := by
    intro s' g' a e h hpre
    obtain ⟨r, s'', hr, hans, hI'⟩ := hs.perform e h (Function.update_self ..) hpre
    exact ⟨r, s'', hr, hans, by simpa using hI'⟩
  obtain ⟨v, s', g', hv, hI', hQ⟩ := Prog.exec_spec
    (J := fun s g => I s (Function.update γ t (some g))) hJ hwp hI₁ env
  refine ⟨v, M.finish s' c v, by simp [Machine.alone, hb, hv], ?_⟩
  have := hs.finish hI' (Function.update_self ..) hQ
  rwa [Function.update_idem, ← ht, Function.update_eq_self] at this

end Machine

end TieredAllocator.Lib
