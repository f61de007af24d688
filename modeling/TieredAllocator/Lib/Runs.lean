/-!
# Runs

A `System` has states, labels, and a step that a label determines; `allowed` says which labels
the environment may choose in a state, and a step may be undefined.  `Run` lists the labels of
a finite run.  Five rules are used below: an invariant kept by each step holds after each run
(`Run.invariant`, and `Run.invariant_of` for runs along some of the labels); what each step keeps
while `P` holds lasts as long as `P` does (`Run.while`); a property that a step establishes exactly
when it is good holds throughout a run exactly when each step of it is good (`Run.throughout_iff`);
an invariant may count the steps of some kind (`Run.count`); and a system whose steps another one
matches refines it, with what the labels show (`Run.refines`).

`answers` runs a function that answers each input and changes its state; two such functions whose
steps correspond give the same answers (`answers_eq`).
-/

namespace TieredAllocator.Lib

structure System (σ α : Type) where
  allowed : σ → α → Prop
  step : σ → α → Option σ

namespace System

variable {σ α : Type} (S : System σ α)

/-- From `t` the labels `as`, each allowed in its turn, lead to `u`. -/
inductive Run : σ → List α → σ → Prop where
  | refl (t : σ) : Run t [] t
  | more {t u v : σ} {a : α} {as : List α}
      (ha : S.allowed t a) (h : S.step t a = some u) (r : Run u as v) : Run t (a :: as) v

/-- `P` holds of `t` and of the states the labels lead through, the last one included. -/
def Throughout (P : σ → Prop) : σ → List α → Prop
  | t, [] => P t
  | t, a :: as => P t ∧ ∀ u, S.step t a = some u → Throughout P u as

/-- `G` holds of each label and the state it is taken in. -/
def EachStep (G : σ → α → Prop) : σ → List α → Prop
  | _, [] => True
  | t, a :: as => G t a ∧ ∀ u, S.step t a = some u → EachStep G u as

/-- How many of the labels are taken in a state with `B`. -/
def tally (B : σ → α → Bool) : σ → List α → Nat
  | _, [] => 0
  | t, a :: as => (B t a).toNat + (S.step t a).elim 0 fun u => tally B u as

/-- What the labels show, one after the other. -/
def trace {δ : Type} (v : σ → α → Option δ) : σ → List α → List δ
  | _, [] => []
  | t, a :: as => (v t a).toList ++ (S.step t a).elim [] fun u => trace v u as

/-- The run along the labels, if they are allowed and defined. -/
def replay [∀ t a, Decidable (S.allowed t a)] : σ → List α → Option σ
  | t, [] => some t
  | t, a :: as => if S.allowed t a then (S.step t a).bind fun u => replay u as else none

variable {S} {t u v : σ} {a : α} {as bs : List α} {I P : σ → Prop} {G : σ → α → Prop}

theorem Run.append (r : S.Run t as u) (r' : S.Run u bs v) : S.Run t (as ++ bs) v := by
  induction r with
  | refl t => exact r'
  | more ha h r ih => exact .more ha h (ih r')

theorem Run.split : ∀ {t as v}, S.Run t (as ++ bs) v → ∃ u, S.Run t as u ∧ S.Run u bs v
  | t, [], _, r => ⟨t, .refl t, r⟩
  | _, _ :: _, _, .more ha h r =>
      let ⟨w, hw, hbs⟩ := r.split
      ⟨w, .more ha h hw, hbs⟩

theorem Run.one (ha : S.allowed t a) (h : S.step t a = some u) : S.Run t [a] u :=
  .more ha h (.refl u)

theorem Run.of_replay [∀ t a, Decidable (S.allowed t a)] :
    ∀ {t as}, S.replay t as = some u → S.Run t as u
  | t, [], h => by
      obtain rfl : t = u := by simpa [replay] using h
      exact .refl t
  | t, a :: as, h => by
      by_cases ha : S.allowed t a
      · obtain ⟨v, hv, h⟩ : ∃ v, S.step t a = some v ∧ S.replay v as = some u := by
          simpa [replay, ha, Option.bind_eq_some_iff] using h
        exact .more ha hv (of_replay h)
      · simp [replay, ha] at h

theorem Run.replay_eq [∀ t a, Decidable (S.allowed t a)] (r : S.Run t as u) :
    S.replay t as = some u := by
  induction r with
  | refl t => rfl
  | more ha h _ ih => rw [replay, if_pos ha, h, Option.bind_some, ih]

/-- **Invariants.**  What each step keeps, each run keeps. -/
theorem Run.invariant (hI : ∀ {t a u}, I t → S.allowed t a → S.step t a = some u → I u)
    (r : S.Run t as u) (ht : I t) : I u := by
  induction r with
  | refl t => exact ht
  | more ha h _ ih => exact ih (hI ht ha h)

/-- What each step with a label in `L` keeps, each run along such labels keeps. -/
theorem Run.invariant_of {L : α → Prop}
    (hI : ∀ {t a u}, I t → L a → S.allowed t a → S.step t a = some u → I u)
    (r : S.Run t as u) (hL : ∀ a ∈ as, L a) (ht : I t) : I u := by
  induction r with
  | refl t => exact ht
  | more ha h _ ih =>
      exact ih (fun b hb => hL b (List.mem_cons_of_mem _ hb))
        (hI ht (hL _ List.mem_cons_self) ha h)

instance decidableEachStep [∀ t a, Decidable (G t a)] : ∀ t as, Decidable (S.EachStep G t as)
  | _, [] => isTrue trivial
  | t, a :: as =>
      match hs : S.step t a with
      | none => decidable_of_iff (G t a)
          ⟨fun h => ⟨h, fun u hu => by rw [hs] at hu; cases hu⟩, And.left⟩
      | some u =>
          have := decidableEachStep u as
          decidable_of_iff (G t a ∧ S.EachStep G u as)
            ⟨fun h => ⟨h.1, fun v hv => by rw [hs] at hv; cases hv; exact h.2⟩,
              fun h => ⟨h.1, h.2 u hs⟩⟩

theorem Throughout.first : ∀ {as}, S.Throughout P t as → P t
  | [], h => h
  | _ :: _, h => h.1

theorem Throughout.last (r : S.Run t as u) (h : S.Throughout P t as) : P u := by
  induction r with
  | refl t => exact h
  | more _ hs _ ih => exact ih (h.2 _ hs)

/-- **Stability.**  If, under an invariant, each step between states with `P` keeps `Q`, then `Q`
lasts as long as `P` does. -/
theorem Run.while {Q : σ → Prop} (hI : ∀ {t a u}, I t → S.allowed t a → S.step t a = some u → I u)
    (hQ : ∀ {t a u}, I t → P t → P u → S.allowed t a → S.step t a = some u → Q t → Q u)
    (r : S.Run t as u) (ht : I t) (hP : S.Throughout P t as) (hQt : Q t) : Q u := by
  induction r with
  | refl t => exact hQt
  | more ha h _ ih =>
      have hrest := hP.2 _ h
      exact ih (hI ht ha h) hrest (hQ ht hP.first hrest.first ha h hQt)

/-- **Exactness.**  If, under an invariant, a step from a state with `P` leads to a state with
`P` exactly when the step is good, then `P` holds throughout a run exactly when each step of the
run is good. -/
theorem Run.throughout_iff (hI : ∀ {t a u}, I t → S.allowed t a → S.step t a = some u → I u)
    (hP : ∀ {t a u}, I t → P t → S.allowed t a → S.step t a = some u → (P u ↔ G t a))
    (r : S.Run t as u) (ht : I t) (hPt : P t) : S.Throughout P t as ↔ S.EachStep G t as := by
  induction r with
  | refl t => exact iff_of_true hPt trivial
  | @more t u v a as ha h r ih =>
      have hGu := hP ht hPt ha h
      constructor
      · rintro ⟨-, hall⟩
        have hu := hall u h
        refine ⟨hGu.mp hu.first, fun w hw => ?_⟩
        obtain rfl := Option.some.inj (h.symm.trans hw)
        exact (ih (hI ht ha h) hu.first).mp hu
      · rintro ⟨hG, hall⟩
        refine ⟨hPt, fun w hw => ?_⟩
        obtain rfl := Option.some.inj (h.symm.trans hw)
        exact (ih (hI ht ha h) (hGu.mpr hG)).mpr (hall u h)

/-- **Counting.**  What each step keeps of `n`, or of `n + 1` if it is counted, each run keeps. -/
theorem Run.count {B : σ → α → Bool} {I : Nat → σ → Prop}
    (hI : ∀ {n t a u}, I n t → S.allowed t a → S.step t a = some u → I (n + (B t a).toNat) u)
    (r : S.Run t as u) {n : Nat} (ht : I n t) : I (n + S.tally B t as) u := by
  induction r generalizing n with
  | refl t => exact ht
  | more ha h _ ih =>
      rw [tally, h, Option.elim_some, ← Nat.add_assoc]
      exact ih (hI ht ha h)

/-! #### Refinement -/

section Refinement
variable {τ β δ : Type} {T : System τ β} {J : σ → τ → Prop} {v : σ → α → Option δ}
  {v' : τ → β → Option δ}

theorem Run.trace_append (r : S.Run t as u) (bs : List α) :
    S.trace v t (as ++ bs) = S.trace v t as ++ S.trace v u bs := by
  induction r with
  | refl t => rfl
  | more ha h _ ih =>
      rw [List.cons_append, trace, trace, h, Option.elim_some, Option.elim_some, ih,
        List.append_assoc]

/-- **Refinement.**  If each step out of a related state is matched by a run that shows the same,
then so is each run. -/
theorem Run.refines
    (hJ : ∀ {t x a u}, J t x → S.allowed t a → S.step t a = some u →
      ∃ bs y, T.Run x bs y ∧ T.trace v' x bs = (v t a).toList ∧ J u y)
    (r : S.Run t as u) {x : τ} (h : J t x) :
    ∃ bs y, T.Run x bs y ∧ T.trace v' x bs = S.trace v t as ∧ J u y := by
  induction r generalizing x with
  | refl t => exact ⟨[], x, .refl x, rfl, h⟩
  | more ha hs _ ih =>
      obtain ⟨bs, y, hrun, htrace, hy⟩ := hJ h ha hs
      obtain ⟨bs', z, hrun', htrace', hz⟩ := ih hy
      refine ⟨bs ++ bs', z, hrun.append hrun', ?_, hz⟩
      rw [hrun.trace_append, htrace, htrace', trace, hs, Option.elim_some]

/-- The same for runs along some of the labels, where a step may show several things. -/
theorem Run.refines_of {L : α → Prop} {vs : σ → α → Option (List δ)}
    (hJ : ∀ {t x a u}, J t x → L a → S.allowed t a → S.step t a = some u →
      ∃ bs y, T.Run x bs y ∧ T.trace v' x bs = (vs t a).getD [] ∧ J u y)
    (r : S.Run t as u) (hL : ∀ a ∈ as, L a) {x : τ} (h : J t x) :
    ∃ bs y, T.Run x bs y ∧ T.trace v' x bs = (S.trace vs t as).flatten ∧ J u y := by
  induction r generalizing x with
  | refl t => exact ⟨[], x, .refl x, rfl, h⟩
  | @more t u' u a as ha hs _ ih =>
      obtain ⟨bs, y, hrun, htrace, hy⟩ := hJ h (hL a List.mem_cons_self) ha hs
      obtain ⟨bs', z, hrun', htrace', hz⟩ := ih (fun b hb => hL b (List.mem_cons_of_mem _ hb)) hy
      refine ⟨bs ++ bs', z, hrun.append hrun', ?_, hz⟩
      rw [hrun.trace_append, htrace, htrace', trace, hs, Option.elim_some, List.flatten_append]
      cases vs t a <;> simp

end Refinement

theorem EachStep.tally_eq_zero {B : σ → α → Bool} (r : S.Run t as u)
    (h : S.EachStep (fun t a => B t a = false) t as) : S.tally B t as = 0 := by
  induction r with
  | refl t => rfl
  | more ha hs _ ih =>
      rw [tally, h.1, hs, Option.elim_some, ih (h.2 _ hs)]
      rfl

end System

/-! ### Answers -/

section Answers
variable {σ τ α β : Type}

/-- The answers to the inputs, one after the other, and the last state. -/
def answers (f : σ → α → β × σ) : σ → List α → List β × σ
  | s, [] => ([], s)
  | s, a :: as => ((f s a).1 :: (answers f (f s a).2 as).1, (answers f (f s a).2 as).2)

theorem answers_append (f : σ → α → β × σ) (s : σ) (as bs : List α) :
    answers f s (as ++ bs) = ((answers f s as).1 ++ (answers f (answers f s as).2 bs).1,
      (answers f (answers f s as).2 bs).2) := by
  induction as generalizing s with
  | nil => rfl
  | cons a as ih => simp only [List.cons_append, answers, ih]

/-- **Simulation.**  If related states answer each input alike and stay related, then they answer
all inputs alike. -/
theorem answers_eq {f : σ → α → β × σ} {g : τ → α → β × τ} {J : σ → τ → Prop} {P : α → Prop}
    (hstep : ∀ s t a, J s t → P a → (f s a).1 = (g t a).1 ∧ J (f s a).2 (g t a).2)
    {s : σ} {t : τ} {as : List α} (h : J s t) (has : ∀ a ∈ as, P a) :
    (answers f s as).1 = (answers g t as).1 ∧ J (answers f s as).2 (answers g t as).2 := by
  induction as generalizing s t with
  | nil => exact ⟨rfl, h⟩
  | cons a as ih =>
      obtain ⟨hsame, h'⟩ := hstep s t a h (has a List.mem_cons_self)
      obtain ⟨hrest, hlast⟩ := ih h' fun b hb => has b (List.mem_cons_of_mem _ hb)
      exact ⟨by simp only [answers, hsame, hrest], hlast⟩

end Answers

end TieredAllocator.Lib
