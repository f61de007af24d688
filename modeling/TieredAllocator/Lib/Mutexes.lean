import TieredAllocator.Lib.Programs

/-!
# Library — mutexes

Some actions of a `Machine` lock and unlock mutexes (`Locking`).  Programs that lock them in the
order of a rank, unlock what they hold, and do each of their other actions under the mutexes that
guard it (`Locking.Ordered`) cannot get in each other's way: in each state of a run a mutex is taken
exactly if one thread holds it, each action that is due is guarded, and as long as a call is
running some thread is not waiting (`Locking.Safe`, `Locking.run_safe`, `Locking.Safe.progress`).
-/

namespace TieredAllocator.Lib

inductive LockStep (L : Type) where
  | acquire (l : L)
  | release (l : L)

/-- The mutexes `L` of a machine: which actions lock and unlock them, and what the state and the
ghost of a thread say of them. -/
structure Locking {C A E W σ G : Type} {B : C → Type} {R : A → Type}
    (M : Machine C B A R E W σ G) (L : Type) [DecidableEq L] where
  lockStep : A → Option (LockStep L)
  taken : σ → L → Bool
  holds : G → List L
  acquire : ∀ {e s a r s' l}, M.perform e s a = some (r, s') → lockStep a = some (.acquire l) →
    taken s l = false ∧ taken s' = Function.update (taken s) l true
  release : ∀ {e s a r s' l}, M.perform e s a = some (r, s') → lockStep a = some (.release l) →
    taken s' = Function.update (taken s) l false
  other : ∀ {e s a r s'}, M.perform e s a = some (r, s') → lockStep a = none →
    taken s' = taken s
  track_acquire : ∀ {g a r l}, lockStep a = some (.acquire l) →
    holds (M.track g a r) = l :: holds g
  track_release : ∀ {g a r l}, lockStep a = some (.release l) →
    holds (M.track g a r) = (holds g).erase l
  track_other : ∀ {g a r}, lockStep a = none → holds (M.track g a r) = holds g
  begin : ∀ {s c g s'}, M.begin s c = some (g, s') → holds g = [] ∧ taken s' = taken s
  finish : ∀ {s c v}, taken (M.finish s c v) = taken s
  client : ∀ {s w s'}, M.client s w = some s' → taken s' = taken s

namespace Locking

variable {ι C A E W σ G L : Type} {B : C → Type} {R : A → Type} [DecidableEq ι] [DecidableEq L]
  {M : Machine C B A R E W σ G} (K : Locking M L) (rank : L → Nat) (guards : A → L → Prop)

/-- What an action needs of the mutexes its thread holds. -/
def Fine (g : G) (a : A) : Prop :=
  match K.lockStep a with
  | some (.acquire l) => ∀ m ∈ K.holds g, rank m < rank l
  | some (.release l) => l ∈ K.holds g
  | none => ∀ l, guards a l → l ∈ K.holds g

/-- The program keeps to the order, works under the mutexes that guard what it does, and ends with
none. -/
def Ordered {β : Type} (p : Prog A R β) (g : G) : Prop :=
  p.wp ⟨K.Fine rank guards, fun _ _ _ => True, M.track⟩ (fun g _ => K.holds g = []) g

/-- The thread has to wait for `l`. -/
def Waits (u : Config ι C B A R σ G) (t : ι) (l : L) : Prop :=
  ∃ c g a k, u.threads t = .busy c g (.act a k) ∧ K.lockStep a = some (.acquire l) ∧
    K.taken u.state l = true

/-- What the threads hold is what is taken, and each keeps to the order. -/
structure Safe (u : Config ι C B A R σ G) : Prop where
  taken : ∀ l, K.taken u.state l = true ↔ ∃ t g, Machine.ghosts u t = some g ∧ l ∈ K.holds g
  nodup : ∀ t g, Machine.ghosts u t = some g → (K.holds g).Nodup
  exclusive : ∀ t t' g g' l, Machine.ghosts u t = some g → Machine.ghosts u t' = some g' →
    l ∈ K.holds g → l ∈ K.holds g' → t = t'
  ordered : ∀ t c g p, u.threads t = .busy c g p → K.Ordered rank guards p g

variable {K rank guards} {u u' : Config ι C B A R σ G} {t : ι} {l : L}

omit [DecidableEq ι] in
theorem ghosts_of_busy {c : C} {g : G} {p : Prog A R (B c)} (h : u.threads t = .busy c g p) :
    Machine.ghosts u t = some g := by
  rw [Machine.ghosts, h]
  rfl

omit [DecidableEq ι] in
theorem safe_rest {s : σ} (h : ∀ l, K.taken s l = false) :
    K.Safe (ι := ι) rank guards (Machine.rest s) where
  taken l := by
    refine iff_of_false (by rw [show K.taken (Machine.rest s).state l = _ from h l]; simp) ?_
    rintro ⟨t, g, hg, -⟩
    cases hg
  nodup t g hg := by cases hg
  exclusive t t' g g' l hg := by cases hg
  ordered t c g p hp := by cases hp

/-- The mutexes that `t` holds. -/
def heldBy (f : Option G) (l : L) : Prop := ∃ g, f = some g ∧ l ∈ K.holds g

namespace Safe

/-- The thread `t` goes on as `th`; what it holds is what has changed. -/
theorem update (hu : K.Safe rank guards u) {s : σ} {th : Thread C B A R G}
    (htaken : ∀ l, K.taken s l = true ↔ K.heldBy th.ghost l ∨
      (¬ K.heldBy (Machine.ghosts u t) l ∧ K.taken u.state l = true))
    (hnodup : ∀ g, th.ghost = some g → (K.holds g).Nodup)
    (hfree : ∀ l, K.heldBy th.ghost l → K.heldBy (Machine.ghosts u t) l ∨
      K.taken u.state l = false)
    (hord : ∀ c g p, th = .busy c g p → K.Ordered rank guards p g) :
    K.Safe rank guards ⟨s, Function.update u.threads t th⟩ := by
  have hghosts := Machine.ghosts_update u s t th
  -- what another thread holds, `t` does not
  have hother : ∀ t' g l, t' ≠ t → Machine.ghosts u t' = some g → l ∈ K.holds g →
      ¬ K.heldBy th.ghost l := by
    intro t' g l hne hg hl hth
    rcases hfree l hth with ⟨g₀, hg₀, hl₀⟩ | hfalse
    · exact hne (hu.exclusive t' t g g₀ l hg hg₀ hl hl₀)
    · rw [(hu.taken l).mpr ⟨t', g, hg, hl⟩] at hfalse
      cases hfalse
  refine ⟨fun l => ?_, fun t' g hg => ?_, fun t₁ t₂ g₁ g₂ l h₁ h₂ hl₁ hl₂ => ?_,
    fun t' c g p hp => ?_⟩
  · rw [show K.taken (⟨s, Function.update u.threads t th⟩ : Config ι C B A R σ G).state l =
      K.taken s l from rfl, htaken, hghosts]
    constructor
    · rintro (⟨g, hg, hl⟩ | ⟨hnot, htak⟩)
      · exact ⟨t, g, by rw [Function.update_self, hg], hl⟩
      · obtain ⟨t', g, hg, hl⟩ := (hu.taken l).mp htak
        have hne : t' ≠ t := by
          rintro rfl
          exact hnot ⟨g, hg, hl⟩
        exact ⟨t', g, by rw [Function.update_of_ne hne, hg], hl⟩
    · rintro ⟨t', g, hg, hl⟩
      by_cases ht : t' = t
      · subst ht
        rw [Function.update_self] at hg
        exact .inl ⟨g, hg, hl⟩
      · rw [Function.update_of_ne ht] at hg
        refine .inr ⟨?_, (hu.taken l).mpr ⟨t', g, hg, hl⟩⟩
        rintro ⟨g₀, hg₀, hl₀⟩
        exact ht (hu.exclusive t' t g g₀ l hg hg₀ hl hl₀)
  · rw [hghosts] at hg
    by_cases ht : t' = t
    · subst ht
      rw [Function.update_self] at hg
      exact hnodup g hg
    · rw [Function.update_of_ne ht] at hg
      exact hu.nodup t' g hg
  · rw [hghosts] at h₁ h₂
    by_cases ht₁ : t₁ = t <;> by_cases ht₂ : t₂ = t
    · exact ht₁.trans ht₂.symm
    · subst ht₁
      rw [Function.update_self] at h₁
      rw [Function.update_of_ne ht₂] at h₂
      exact absurd ⟨g₁, h₁, hl₁⟩ (hother t₂ g₂ l ht₂ h₂ hl₂)
    · subst ht₂
      rw [Function.update_of_ne ht₁] at h₁
      rw [Function.update_self] at h₂
      exact absurd ⟨g₂, h₂, hl₂⟩ (hother t₁ g₁ l ht₁ h₁ hl₁)
    · rw [Function.update_of_ne ht₁] at h₁
      rw [Function.update_of_ne ht₂] at h₂
      exact hu.exclusive t₁ t₂ g₁ g₂ l h₁ h₂ hl₁ hl₂
  · have hp : Function.update u.threads t th t' = .busy c g p := hp
    by_cases ht : t' = t
    · subst ht
      rw [Function.update_self] at hp
      exact hord c g p hp
    · rw [Function.update_of_ne ht] at hp
      exact hu.ordered t' c g p hp

/-- The thread does an action that leaves the mutexes. -/
theorem still (hu : K.Safe rank guards u) {s : σ} {c c' : C} {g g' : G} {p : Prog A R (B c)}
    {p' : Prog A R (B c')} (ht : u.threads t = .busy c g p) (htaken : K.taken s = K.taken u.state)
    (hholds : K.holds g' = K.holds g) (hord : K.Ordered rank guards p' g') :
    K.Safe rank guards ⟨s, Function.update u.threads t (.busy c' g' p')⟩ := by
  have hg := ghosts_of_busy ht
  refine hu.update (fun l => ?_) (fun g₁ h₁ => ?_) (fun l h => .inl ?_) ?_
  · rw [htaken]
    constructor
    · intro h
      by_cases hl : l ∈ K.holds g
      · exact .inl ⟨g', rfl, hholds ▸ hl⟩
      · refine .inr ⟨?_, h⟩
        rintro ⟨g₁, h₁, hl₁⟩
        obtain rfl := Option.some.inj (hg.symm.trans h₁)
        exact hl hl₁
    · rintro (⟨g₁, h₁, hl₁⟩ | ⟨-, h⟩)
      · obtain rfl := Option.some.inj h₁
        exact (hu.taken l).mpr ⟨t, g, hg, hholds ▸ hl₁⟩
      · exact h
  · obtain rfl := Option.some.inj h₁
    rw [hholds]
    exact hu.nodup t g hg
  · obtain ⟨g₁, h₁, hl₁⟩ := h
    obtain rfl := Option.some.inj h₁
    exact ⟨g, hg, hholds ▸ hl₁⟩
  · rintro c₁ g₁ p₁ ⟨⟩
    exact hord

/-- **One step** keeps it. -/
theorem step (hu : K.Safe rank guards u)
    (hprog : ∀ {s c g s'}, M.begin s c = some (g, s') → K.Ordered rank guards (M.program c) g)
    {x : Step ι C E W} (h : (M.system ι).step u x = some u') : K.Safe rank guards u' := by
  cases x with
  | start t c =>
      obtain ⟨hidle, g, s, hb, rfl⟩ := Machine.step_start h
      obtain ⟨hnil, htaken⟩ := K.begin hb
      have hnone : Machine.ghosts u t = none := by
        rw [Machine.ghosts, hidle]
        rfl
      have hnot : ∀ l, ¬ K.heldBy (Thread.busy c g (M.program c)).ghost l := by
        rintro l ⟨g₁, h₁, hl⟩
        obtain rfl := Option.some.inj h₁
        rw [hnil] at hl
        exact List.not_mem_nil hl
      refine hu.update (fun l => ?_) (fun g₁ h₁ => ?_) (fun l hl => absurd hl (hnot l)) ?_
      · rw [htaken, or_iff_right (hnot l)]
        refine (and_iff_right ?_).symm
        rintro ⟨g₁, h₁, -⟩
        rw [hnone] at h₁
        cases h₁
      · obtain rfl := Option.some.inj h₁
        rw [hnil]
        exact List.nodup_nil
      · rintro c₁ g₁ p₁ ⟨⟩
        exact hprog hb
  | finish t =>
      obtain ⟨c, g, v, ht, rfl⟩ := Machine.step_finish h
      have hnil : K.holds g = [] := hu.ordered t c g _ ht
      have hg := ghosts_of_busy ht
      have hnot : ∀ l, ¬ K.heldBy (Thread.idle : Thread C B A R G).ghost l := by
        rintro l ⟨g₁, h₁, -⟩
        cases h₁
      refine hu.update (fun l => ?_) (fun g₁ h₁ => by cases h₁) (fun l hl => absurd hl (hnot l))
        fun c₁ g₁ p₁ h₁ => by cases h₁
      rw [K.finish, or_iff_right (hnot l)]
      refine (and_iff_right ?_).symm
      rintro ⟨g₁, h₁, hl⟩
      obtain rfl := Option.some.inj (hg.symm.trans h₁)
      rw [hnil] at hl
      exact List.not_mem_nil hl
  | client w =>
      obtain ⟨s, hw, rfl⟩ := Option.map_eq_some_iff.mp
        (show (M.client u.state w).map (fun s => (⟨s, u.threads⟩ : Config ι C B A R σ G)) =
          some u' from h)
      exact ⟨fun l => (congrFun (K.client hw) l).symm ▸ hu.taken l, hu.nodup, hu.exclusive,
        hu.ordered⟩
  | act t e =>
      obtain ⟨c, g, a, k, r, s, ht, hr, rfl⟩ := Machine.step_act h
      obtain ⟨hfine, hk⟩ := hu.ordered t c g _ ht
      have hord := hk r trivial
      have hg := ghosts_of_busy ht
      have hfine : K.Fine rank guards g a := hfine
      cases hstep : K.lockStep a with
      | none => exact hu.still ht (K.other hr hstep) (K.track_other hstep) hord
      | some x =>
          cases x with
          | acquire l =>
              obtain ⟨hfree, htaken⟩ := K.acquire hr hstep
              have hholds := K.track_acquire (g := g) (r := r) hstep
              have hnew : l ∉ K.holds g := by
                intro hl
                rw [(hu.taken l).mpr ⟨t, g, hg, hl⟩] at hfree
                cases hfree
              refine hu.update (fun m => ?_) (fun g₁ h₁ => ?_) (fun m hm => ?_) ?_
              · rw [htaken]
                by_cases hml : m = l
                · subst hml
                  rw [Function.update_self]
                  exact iff_of_true rfl (.inl ⟨_, rfl, hholds ▸ List.mem_cons_self⟩)
                · rw [Function.update_of_ne hml]
                  constructor
                  · intro h
                    by_cases hm : m ∈ K.holds g
                    · exact .inl ⟨_, rfl, hholds ▸ List.mem_cons_of_mem _ hm⟩
                    · refine .inr ⟨?_, h⟩
                      rintro ⟨g₁, h₁, hm₁⟩
                      obtain rfl := Option.some.inj (hg.symm.trans h₁)
                      exact hm hm₁
                  · rintro (⟨g₁, h₁, hm₁⟩ | ⟨-, h⟩)
                    · obtain rfl := Option.some.inj h₁
                      rw [hholds] at hm₁
                      exact (hu.taken m).mpr
                        ⟨t, g, hg, (List.mem_cons.mp hm₁).resolve_left hml⟩
                    · exact h
              · obtain rfl := Option.some.inj h₁
                rw [hholds]
                exact List.nodup_cons.mpr ⟨hnew, hu.nodup t g hg⟩
              · obtain ⟨g₁, h₁, hm₁⟩ := hm
                obtain rfl := Option.some.inj h₁
                rw [hholds] at hm₁
                rcases List.mem_cons.mp hm₁ with rfl | hm₁
                · exact .inr hfree
                · exact .inl ⟨g, hg, hm₁⟩
              · rintro c₁ g₁ p₁ ⟨⟩
                exact hord
          | release l =>
              have htaken := K.release hr hstep
              have hholds := K.track_release (g := g) (r := r) hstep
              have hnd := hu.nodup t g hg
              refine hu.update (fun m => ?_) (fun g₁ h₁ => ?_) (fun m hm => .inl ?_) ?_
              · rw [htaken]
                by_cases hml : m = l
                · subst hml
                  rw [Function.update_self]
                  refine iff_of_false Bool.false_ne_true ?_
                  have hheld : m ∈ K.holds g := by
                    simpa only [Fine, hstep] using hfine
                  rintro (⟨g₁, h₁, hm₁⟩ | ⟨hnot, -⟩)
                  · obtain rfl := Option.some.inj h₁
                    rw [hholds] at hm₁
                    exact (hnd.mem_erase_iff.mp hm₁).1 rfl
                  · exact hnot ⟨g, hg, hheld⟩
                · rw [Function.update_of_ne hml]
                  constructor
                  · intro h
                    by_cases hm : m ∈ K.holds g
                    · exact .inl ⟨_, rfl, hholds ▸ (List.mem_erase_of_ne hml).mpr hm⟩
                    · refine .inr ⟨?_, h⟩
                      rintro ⟨g₁, h₁, hm₁⟩
                      obtain rfl := Option.some.inj (hg.symm.trans h₁)
                      exact hm hm₁
                  · rintro (⟨g₁, h₁, hm₁⟩ | ⟨-, h⟩)
                    · obtain rfl := Option.some.inj h₁
                      rw [hholds] at hm₁
                      exact (hu.taken m).mpr ⟨t, g, hg, List.mem_of_mem_erase hm₁⟩
                    · exact h
              · obtain rfl := Option.some.inj h₁
                rw [hholds]
                exact hnd.erase l
              · obtain ⟨g₁, h₁, hm₁⟩ := hm
                obtain rfl := Option.some.inj h₁
                rw [hholds] at hm₁
                exact ⟨g, hg, List.mem_of_mem_erase hm₁⟩
              · rintro c₁ g₁ p₁ ⟨⟩
                exact hord

omit [DecidableEq ι] in
/-- Who holds the mutex that another thread waits for waits at most for one of a higher rank. -/
theorem holder (hu : K.Safe rank guards u) (h : K.Waits u t l) :
    ∃ t' c g p, u.threads t' = .busy c g p ∧ ∀ l', K.Waits u t' l' → rank l < rank l' := by
  obtain ⟨-, -, -, -, -, -, htaken⟩ := h
  obtain ⟨t', g', hg', hl⟩ := (hu.taken l).mp htaken
  cases hth : u.threads t' with
  | idle =>
      rw [Machine.ghosts, hth] at hg'
      cases hg'
  | busy c g p =>
      refine ⟨t', c, g, p, hth, fun l' hwait => ?_⟩
      obtain ⟨c₁, g₁, a, k, hth₁, hstep, -⟩ := hwait
      obtain rfl := Option.some.inj ((ghosts_of_busy hth₁).symm.trans hg')
      have hfine : K.Fine rank guards g₁ a := (hu.ordered t' c₁ g₁ _ hth₁).1
      simp only [Fine, hstep] at hfine
      exact hfine l hl

omit [DecidableEq ι] in
/-- **Progress.**  Where a call is running, some running thread does not wait: one that waits for
the mutex of the highest rank would wait for a thread that waits for a higher one. -/
theorem progress (hu : K.Safe rank guards u) {N : Nat} (hrank : ∀ l, rank l ≤ N) {c : C} {g : G}
    {p : Prog A R (B c)} (ht : u.threads t = .busy c g p) :
    ∃ t' c' g' p', u.threads t' = .busy c' g' p' ∧ ∀ l, ¬ K.Waits u t' l := by
  have hclimb : ∀ n t l, K.Waits u t l → N < rank l + n →
      ∃ t' c' g' p', u.threads t' = .busy c' g' p' ∧ ∀ l, ¬ K.Waits u t' l := by
    intro n
    induction n with
    | zero =>
        intro t l _ hn
        exact absurd (hrank l) (not_le.mpr hn)
    | succ n ih =>
        intro t l hwait hn
        obtain ⟨t', c', g', p', ht', hup⟩ := hu.holder hwait
        by_cases h : ∃ l', K.Waits u t' l'
        · obtain ⟨l', hl'⟩ := h
          have := hup l' hl'
          exact ih t' l' hl' (by omega)
        · exact ⟨t', c', g', p', ht', not_exists.mp h⟩
  by_cases h : ∃ l, K.Waits u t l
  · obtain ⟨l, hl⟩ := h
    exact hclimb (N + 1) t l hl (by omega)
  · exact ⟨t, c, g, p, ht, not_exists.mp h⟩

end Safe

/-- **Runs.**  Programs that keep to the order are safe after each run. -/
theorem run_safe {s : σ} (hs : ∀ l, K.taken s l = false)
    (hprog : ∀ {s c g s'}, M.begin s c = some (g, s') → K.Ordered rank guards (M.program c) g)
    {ls : List (Step ι C E W)} (r : (M.system ι).Run (Machine.rest s) ls u) :
    K.Safe rank guards u :=
  r.invariant (fun hu _ h => hu.step hprog h) (safe_rest hs)

end Locking

end TieredAllocator.Lib
