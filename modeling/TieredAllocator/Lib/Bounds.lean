import TieredAllocator.Lib.Programs

/-!
# Library — programs that end

`Prog.Within` bounds the actions of a program, as long as its answers can be relied on.  A bound for
each program is one for each call: in a run of a `Sound` machine a thread has done at most so many
actions since it began its call, whatever the others did meanwhile (`Machine.Sound.run_within`).
-/

namespace TieredAllocator.Lib

namespace Prog

/-- What may be asked of an action, and what may be relied on of its answer. -/
structure Terms (A : Type) (R : A → Type) where
  fits : A → Prop
  ok : (a : A) → R a → Prop

variable {A β δ : Type} {R : A → Type} {τ : Terms A R} {φ : β → Prop} {ψ : δ → Prop} {n m : Nat}

/-- As long as the answers are `ok`, the program does `n` actions at most, each of which `fits`, and
returns a result with `φ`. -/
def Within (τ : Terms A R) (φ : β → Prop) : Prog A R β → (n : Nat) → Prop
  | .done v, _ => φ v
  | .act _ _, 0 => False
  | .act a k, n + 1 => τ.fits a ∧ ∀ r, τ.ok a r → (k r).Within τ φ n

theorem within_done {v : β} (h : φ v) (n : Nat) : (.done v : Prog A R β).Within τ φ n := h

theorem within_perform {a : A} {φ : R a → Prop} (ha : τ.fits a) (h : ∀ r, τ.ok a r → φ r) :
    (perform a : Prog A R (R a)).Within τ φ 1 := ⟨ha, h⟩

/-- An action, and what is done with its answer. -/
theorem within_perform_bind {a : A} {f : R a → Prog A R δ} (ha : τ.fits a)
    (h : ∀ r, τ.ok a r → (f r).Within τ ψ n) : (perform a >>= f).Within τ ψ (n + 1) := ⟨ha, h⟩

theorem Within.mono {p : Prog A R β} {φ' : β → Prop} (h : p.Within τ φ n) (hφ : ∀ v, φ v → φ' v)
    (hnm : n ≤ m) : p.Within τ φ' m := by
  induction p generalizing n m with
  | done v => exact hφ v h
  | act a k ih =>
      cases n with
      | zero => exact h.elim
      | succ n =>
          cases m with
          | zero => omega
          | succ m => exact ⟨h.1, fun r hr => ih r (h.2 r hr) (by omega)⟩

/-- Sequencing. -/
theorem Within.bind {p : Prog A R β} {f : β → Prog A R δ} (hp : p.Within τ φ n)
    (hf : ∀ v, φ v → (f v).Within τ ψ m) : (p >>= f).Within τ ψ (n + m) := by
  induction p generalizing n with
  | done v => exact (hf v hp).mono (fun _ => id) (Nat.le_add_left m n)
  | act a k ih =>
      cases n with
      | zero => exact hp.elim
      | succ n =>
          rw [Nat.succ_add]
          exact ⟨hp.1, fun r hr => ih r (hp.2 r hr)⟩

end Prog

/-! ### Threads -/

section Step
variable {ι C E W : Type}

/-- The thread that takes the step, if it is not a client's. -/
def Step.thread : Step ι C E W → Option ι
  | .start t _ | .act t _ | .finish t => some t
  | .client _ => none

/-- The thread does an action. -/
def Step.isAct [DecidableEq ι] (t : ι) : Step ι C E W → Bool
  | .act t' _ => t' == t
  | _ => false

theorem Step.isAct_of_ne [DecidableEq ι] {t : ι} {l : Step ι C E W} (h : l.thread ≠ some t) :
    l.isAct t = false := by
  cases l with
  | act t' e => exact beq_false_of_ne fun heq => h (congrArg some heq)
  | _ => rfl

end Step

namespace Machine

variable {ι C A E W σ G : Type} {B : C → Type} {R : A → Type} [DecidableEq ι]
  {M : Machine C B A R E W σ G} {pre : G → A → Prop} {ans : G → (a : A) → R a → Prop}
  {Q : (c : C) → G → B c → Prop} {I : σ → (ι → Option G) → Prop}
  {τ : Prog.Terms A R} {φ : (c : C) → B c → Prop} {u v : Config ι C B A R σ G} {t : ι}
  {n : Nat}

/-- The steps of the others leave a thread where it is. -/
theorem threads_of_ne {l : Step ι C E W} (h : (M.system ι).step u l = some v)
    (hne : l.thread ≠ some t) : v.threads t = u.threads t := by
  have hother : ∀ {t' th s}, some t' ≠ some t → v = ⟨s, Function.update u.threads t' th⟩ →
      v.threads t = u.threads t := by
    rintro t' th s hne rfl
    exact Function.update_of_ne (fun heq => hne (congrArg some heq.symm)) _ _
  cases l with
  | start t' c =>
      obtain ⟨-, g, s, -, hv⟩ := step_start h
      exact hother hne hv
  | act t' e =>
      obtain ⟨c, g, a, k, r, s, -, -, hv⟩ := step_act h
      exact hother hne hv
  | finish t' =>
      obtain ⟨c, g, x, -, hv⟩ := step_finish h
      exact hother hne hv
  | client w =>
      obtain ⟨s, -, rfl⟩ := Option.map_eq_some_iff.mp
        (show (M.client u.state w).map (fun s => (⟨s, u.threads⟩ : Config ι C B A R σ G)) =
          some v from h)
      rfl

/-- An action of a thread is one of those that it has left. -/
theorem Sound.step_within (hs : Sound M ι pre ans Q I) (hans : ∀ g a r, ans g a r → τ.ok a r)
    {e : E} (hu : Ok M pre ans Q I u) (h : (M.system ι).step u (.act t e) = some v)
    (ht : ∀ c g p, u.threads t = .busy c g p → p.Within τ (φ c) n) :
    ∃ m, n = m + 1 ∧ ∀ c g p, v.threads t = .busy c g p → p.Within τ (φ c) m := by
  obtain ⟨c, g, a, k, r, s, hbusy, hr, rfl⟩ := step_act h
  obtain ⟨hpre, -⟩ := hu.2 t c g _ hbusy
  have hwithin := ht c g _ hbusy
  cases n with
  | zero => exact hwithin.elim
  | succ m =>
      refine ⟨m, rfl, fun c' g' p hp => ?_⟩
      obtain ⟨r', s', hr', hgood, -⟩ :=
        hs.perform e hu.1 (show ghosts u t = some g by rw [ghosts, hbusy]; rfl) hpre
      obtain ⟨rfl, rfl⟩ := Prod.mk.inj (Option.some.inj (hr.symm.trans hr'))
      have hp : Function.update u.threads t (.busy c (M.track g a r) (k r)) t =
          .busy c' g' p := hp
      rw [Function.update_self] at hp
      cases hp
      exact hwithin.2 r (hans g a r hgood)

/-- **Bounded calls.**  While it begins no other call, a thread does at most the actions that its
program has left, whatever the others do. -/
theorem Sound.run_within (hs : Sound M ι pre ans Q I) (hans : ∀ g a r, ans g a r → τ.ok a r)
    {ls : List (Step ι C E W)} (r : (M.system ι).Run u ls v) (hu : Ok M pre ans Q I u)
    (hls : ∀ c, Step.start t c ∉ ls)
    (ht : ∀ c g p, u.threads t = .busy c g p → p.Within τ (φ c) n) :
    ls.countP (Step.isAct t) ≤ n ∧
      ∀ c g p, v.threads t = .busy c g p → p.Within τ (φ c) (n - ls.countP (Step.isAct t)) := by
  induction r generalizing n with
  | refl u => exact ⟨Nat.zero_le _, ht⟩
  | @more u w v l ls hl h _ ih =>
      obtain ⟨w', hw', hw⟩ := hs.step hu hl
      obtain rfl := Option.some.inj (h.symm.trans hw')
      have hrest : ∀ c, Step.start t c ∉ ls := fun c hc => hls c (List.mem_cons_of_mem _ hc)
      by_cases hthread : l.thread = some t
      · cases l with
        | start t' c =>
            obtain rfl := Option.some.inj hthread
            exact absurd List.mem_cons_self (hls c)
        | act t' e =>
            obtain rfl := Option.some.inj hthread
            obtain ⟨m, rfl, hm⟩ := hs.step_within hans hu h ht
            obtain ⟨hle, hleft⟩ := ih hw hrest hm
            rw [List.countP_cons_of_pos (by simp [Step.isAct]), Nat.add_sub_add_right]
            exact ⟨Nat.succ_le_succ hle, hleft⟩
        | finish t' =>
            obtain rfl := Option.some.inj hthread
            obtain ⟨c, g, x, -, rfl⟩ := step_finish h
            rw [List.countP_cons_of_neg (by simp [Step.isAct])]
            refine ih hw hrest fun c' g' p hp => ?_
            have hp : Function.update u.threads t' .idle t' = .busy c' g' p := hp
            rw [Function.update_self] at hp
            cases hp
        | client x => cases hthread
      · rw [List.countP_cons_of_neg (by rw [Step.isAct_of_ne hthread]; exact Bool.false_ne_true)]
        exact ih hw hrest (threads_of_ne h hthread ▸ ht)

end Machine

end TieredAllocator.Lib
