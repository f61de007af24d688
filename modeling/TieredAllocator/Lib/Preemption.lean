import TieredAllocator.Lib.Runs

/-!
# Library — an operation that the kernel interrupts

A thread runs an operation instruction by instruction on a memory that others use too.  Before any
instruction the kernel may interrupt it: other threads do operations, on any CPU, and the thread
goes on, perhaps on another CPU and perhaps somewhere else in its code.  While it runs, threads on
the other CPUs do operations.

The operations of the others are atomic and answer as their specification does (`Service`).
`Effect` says what an interleaving of the thread's own operations and theirs leaves behind.  An
`Outline` says for each state of the thread what it knows: `early`, that it has done nothing since
it started, or `late`, that it has done its operation and how that was answered; in a `late` state
in the `window`, an interruption makes it start again.  So it does its operation once more for each
interruption in the window (`Outline.run`).
-/

namespace TieredAllocator.Lib

/-- Operations on a memory that stands for an abstract state. -/
structure Service (μ ω α τ : Type) where
  apply : μ → ω → α × μ
  spec : τ → ω → α × τ
  Valid : ω → Prop
  Rep : μ → τ → Prop
  refines : ∀ {m t o}, Rep m t → Valid o →
    (apply m o).1 = (spec t o).1 ∧ Rep (apply m o).2 (spec t o).2

/-- A service, and a thread that runs next to it. -/
structure Scene (θ μ ω α τ : Type) extends Service μ ω α τ where
  step : μ → θ → Option (θ × μ)
  interrupt : (cpu : Nat) → θ → θ
  cpu : θ → Nat
  /-- the CPU that an operation is done on -/
  site : ω → Nat
  IsCpu : Nat → Prop

/-- `log` lists what the others did, and the answers they got. -/
structure Scene.World (θ μ ω α : Type) where
  thread : θ
  mem : μ
  log : List (ω × α) := []

inductive Scene.Event (ω : Type) where
  | exec
  | interrupt (cpu : Nat) (ops : List ω)
  | parallel (o : ω)

variable {θ μ ω α τ : Type}

/-! ### Effects -/

namespace Service

/-- `t` is what the operations of `own` and of `log` make of `t₀` in some interleaving, each
answered as it is listed. -/
inductive Effect (S : Service μ ω α τ) (t₀ : τ) :
    (own log : List (ω × α)) → (t : τ) → Prop where
  | nil : Effect S t₀ [] [] t₀
  | own {own log : List (ω × α)} {t : τ} (o : ω) (h : Effect S t₀ own log t) :
      Effect S t₀ (own ++ [(o, (S.spec t o).1)]) log (S.spec t o).2
  | other {own log : List (ω × α)} {t : τ} (o : ω) (h : Effect S t₀ own log t) :
      Effect S t₀ own (log ++ [(o, (S.spec t o).1)]) (S.spec t o).2

variable {S : Service μ ω α τ} {t₀ t : τ} {log : List (ω × α)} {o : ω} {a : α}

/-- Without operations of its own, the answers are those of the others, one after the other. -/
theorem Effect.none (h : S.Effect t₀ [] log t) :
    answers S.spec t₀ (log.map Prod.fst) = (log.map Prod.snd, t) := by
  generalize hown : ([] : List (ω × α)) = own at h
  induction h with
  | nil => rfl
  | own o h ih => simp at hown
  | other o h ih => simp [answers_append, ih hown, answers]

/-- One operation of its own stands at one point between those of the others. -/
theorem Effect.once (h : S.Effect t₀ [(o, a)] log t) : ∃ before after, log = before ++ after ∧
    answers S.spec t₀ (before.map Prod.fst ++ o :: after.map Prod.fst) =
      (before.map Prod.snd ++ a :: after.map Prod.snd, t) := by
  generalize hown : [(o, a)] = own at h
  induction h with
  | nil => simp at hown
  | @own own log t o' h ih =>
      cases own with
      | nil =>
          obtain ⟨rfl, rfl⟩ : o = o' ∧ a = (S.spec t o').1 := by simpa using hown
          exact ⟨log, [], by simp, by simp [answers_append, h.none, answers]⟩
      | cons d own => simp at hown
  | @other own log t o' h ih =>
      obtain ⟨before, after, rfl, heq⟩ := ih hown
      refine ⟨before, after ++ [(o', (S.spec t o').1)], by simp, ?_⟩
      rw [List.map_append, ← List.cons_append, ← List.append_assoc, answers_append, heq]
      simp [answers]

end Service

/-! ### Runs -/

namespace Scene

variable (S : Scene θ μ ω α τ)

/-- Another thread does an operation. -/
def World.other (w : World θ μ ω α) (o : ω) : World θ μ ω α :=
  { w with mem := (S.apply w.mem o).2, log := w.log ++ [(o, (S.apply w.mem o).1)] }

def system : System (World θ μ ω α) (Event ω) where
  allowed w
    | .exec => True
    | .interrupt cpu ops => S.IsCpu cpu ∧ ∀ o ∈ ops, S.Valid o
    | .parallel o => S.Valid o ∧ S.site o ≠ S.cpu w.thread
  step w
    | .exec => (S.step w.mem w.thread).map fun r => { w with thread := r.1, mem := r.2 }
    | .interrupt cpu ops =>
        some (ops.foldl (World.other S) { w with thread := S.interrupt cpu w.thread })
    | .parallel o => some (w.other S o)

variable {S} {t₀ t : τ} {w : World θ μ ω α} {o : ω} {l : List (ω × α)}

/-- The operations of the others have their effect, and no other. -/
theorem effect_other (hv : S.Valid o) (he : S.Effect t₀ l w.log t) (hr : S.Rep w.mem t) :
    S.Effect t₀ l (w.other S o).log (S.spec t o).2 ∧ S.Rep (w.other S o).mem (S.spec t o).2 := by
  obtain ⟨hans, hrep⟩ := S.refines hr hv
  refine ⟨?_, hrep⟩
  have := he.other o
  rwa [← hans] at this

theorem effect_others {ops : List ω} (hv : ∀ o ∈ ops, S.Valid o) (he : S.Effect t₀ l w.log t)
    (hr : S.Rep w.mem t) : ∃ t', S.Effect t₀ l (ops.foldl (World.other S) w).log t' ∧
      S.Rep (ops.foldl (World.other S) w).mem t' ∧
      (ops.foldl (World.other S) w).thread = w.thread := by
  induction ops generalizing w t with
  | nil => exact ⟨t, he, hr, rfl⟩
  | cons o ops ih =>
      obtain ⟨he', hr'⟩ := effect_other (hv o List.mem_cons_self) he hr
      exact ih (fun o ho => hv o (List.mem_cons_of_mem _ ho)) he' hr'

end Scene

/-- What the thread knows in each of its states, if its operation is `own` on the CPU it is done
on. -/
structure Outline (S : Scene θ μ ω α τ) (own : (cpu : Nat) → ω) where
  early : θ → μ → Prop
  late : θ → (cpu : Nat) → α → Prop
  window : θ → Bool
  exec_early : ∀ {th th' m m' t}, early th m → S.Rep m t → S.step m th = some (th', m') →
    (early th' m' ∧ S.Rep m' t) ∨
      late th' (S.cpu th) (S.spec t (own (S.cpu th))).1 ∧ S.Rep m' (S.spec t (own (S.cpu th))).2
  exec_late : ∀ {th th' m m' t c a}, late th c a → S.Rep m t → S.step m th = some (th', m') →
    late th' c a ∧ S.Rep m' t
  restart : ∀ {th m cpu}, early th m → S.IsCpu cpu → ∀ m', early (S.interrupt cpu th) m'
  again : ∀ {th c a cpu}, late th c a → window th = true → S.IsCpu cpu →
    ∀ m', early (S.interrupt cpu th) m'
  keep : ∀ {th c a cpu}, late th c a → window th = false → late (S.interrupt cpu th) c a
  apart : ∀ {th m t o}, early th m → S.Rep m t → S.Valid o → S.site o ≠ S.cpu th →
    early th (S.apply m o).2
  early_window : ∀ {th m}, early th m → window th = false

namespace Outline

variable {S : Scene θ μ ω α τ} {own : Nat → ω} (O : Outline S own)
  {t₀ t : τ} {w w' : Scene.World θ μ ω α} {es : List (Scene.Event ω)} {n : Nat} {o : ω}

/-- The thread is interrupted in the window. -/
def lateStep (w : Scene.World θ μ ω α) : Scene.Event ω → Bool
  | .interrupt _ _ => O.window w.thread
  | _ => false

/-- The thread has done its operation `n` times and has started again, or it has done it once more
and will not start again unless it is interrupted in the window. -/
def Inv (t₀ : τ) (n : Nat) (w : Scene.World θ μ ω α) : Prop :=
  ∃ (lost : List (ω × α)) (t : τ), lost.length = n ∧ (∀ d ∈ lost, ∃ c, d.1 = own c) ∧
    S.Rep w.mem t ∧
      ((S.Effect t₀ lost w.log t ∧ O.early w.thread w.mem) ∨
        ∃ c a, S.Effect t₀ (lost ++ [(own c, a)]) w.log t ∧ O.late w.thread c a)

theorem inv_init {th : θ} {m : μ} (h : O.early th m) (hr : S.Rep m t₀) :
    O.Inv t₀ 0 ⟨th, m, []⟩ :=
  ⟨[], t₀, rfl, fun _ hd => absurd hd List.not_mem_nil, hr, .inl ⟨.nil, h⟩⟩

/-- An instruction. -/
theorem inv_exec (hi : O.Inv t₀ n w) (h : S.system.step w .exec = some w') : O.Inv t₀ n w' := by
  obtain ⟨lost, t, hlen, hown, hrep, hphase⟩ := hi
  obtain ⟨⟨th', m'⟩, hstep, rfl⟩ := Option.map_eq_some_iff.mp h
  rcases hphase with ⟨he, hearly⟩ | ⟨c, a, he, hlate⟩
  · rcases O.exec_early hearly hrep hstep with ⟨hearly', hrep'⟩ | ⟨hlate', hrep'⟩
    · exact ⟨lost, t, hlen, hown, hrep', .inl ⟨he, hearly'⟩⟩
    · exact ⟨lost, _, hlen, hown, hrep', .inr ⟨_, _, he.own _, hlate'⟩⟩
  · obtain ⟨hlate', hrep'⟩ := O.exec_late hlate hrep hstep
    exact ⟨lost, t, hlen, hown, hrep', .inr ⟨c, a, he, hlate'⟩⟩

/-- An interruption: the thread starts again, unless it is done and not in the window. -/
theorem inv_interrupt {cpu : Nat} {ops : List ω} (hi : O.Inv t₀ n w) (hcpu : S.IsCpu cpu)
    (hops : ∀ o ∈ ops, S.Valid o) (h : S.system.step w (.interrupt cpu ops) = some w') :
    O.Inv t₀ (n + (O.window w.thread).toNat) w' := by
  obtain ⟨lost, t, hlen, hown, hrep, hphase⟩ := hi
  obtain rfl := Option.some.inj h
  let w₁ : Scene.World θ μ ω α := { w with thread := S.interrupt cpu w.thread }
  have hothers : ∀ l, S.Effect t₀ l w.log t →
      ∃ t', S.Effect t₀ l (ops.foldl (Scene.World.other S) w₁).log t' ∧
        S.Rep (ops.foldl (Scene.World.other S) w₁).mem t' ∧
        (ops.foldl (Scene.World.other S) w₁).thread = S.interrupt cpu w.thread :=
    fun l he => Scene.effect_others hops (show S.Effect t₀ l w₁.log t from he) hrep
  rcases hphase with ⟨he, hearly⟩ | ⟨c, a, he, hlate⟩
  · obtain ⟨t', he', hrep', hth⟩ := hothers _ he
    rw [O.early_window hearly]
    refine ⟨lost, t', hlen, hown, hrep', .inl ⟨he', ?_⟩⟩
    rw [hth]
    exact O.restart hearly hcpu _
  · obtain ⟨t', he', hrep', hth⟩ := hothers _ he
    cases hwin : O.window w.thread with
    | true =>
        -- what it has done is lost to it
        refine ⟨lost ++ [(own c, a)], t', by simp [hlen], fun d hd => ?_, hrep', .inl ⟨he', ?_⟩⟩
        · rcases List.mem_append.mp hd with hd | hd
          · exact hown d hd
          · exact ⟨c, by rw [List.mem_singleton.mp hd]⟩
        · rw [hth]
          exact O.again hlate hwin hcpu _
    | false =>
        refine ⟨lost, t', hlen, hown, hrep', .inr ⟨c, a, he', ?_⟩⟩
        rw [hth]
        exact O.keep hlate hwin

/-- An operation on another CPU. -/
theorem inv_parallel (hi : O.Inv t₀ n w) (hv : S.Valid o) (hne : S.site o ≠ S.cpu w.thread)
    (h : S.system.step w (.parallel o) = some w') : O.Inv t₀ n w' := by
  obtain ⟨lost, t, hlen, hown, hrep, hphase⟩ := hi
  obtain rfl := Option.some.inj h
  rcases hphase with ⟨he, hearly⟩ | ⟨c, a, he, hlate⟩
  · obtain ⟨he', hrep'⟩ := Scene.effect_other hv he hrep
    exact ⟨lost, _, hlen, hown, hrep', .inl ⟨he', O.apart hearly hrep hv hne⟩⟩
  · obtain ⟨he', hrep'⟩ := Scene.effect_other hv he hrep
    exact ⟨lost, _, hlen, hown, hrep', .inr ⟨c, a, he', hlate⟩⟩

/-- **Interruptions.**  The thread does its operation once more for each interruption in the
window. -/
theorem run (r : S.system.Run w es w') (hw : O.Inv t₀ n w) :
    O.Inv t₀ (n + S.system.tally O.lateStep w es) w' :=
  r.count (I := O.Inv t₀) (fun {_ _ e _} hi ha h => by
    cases e with
    | exec => exact O.inv_exec hi h
    | interrupt cpu ops => exact O.inv_interrupt hi ha.1 ha.2 h
    | parallel o => exact O.inv_parallel hi ha.1 ha.2 h) hw

end Outline

end TieredAllocator.Lib
