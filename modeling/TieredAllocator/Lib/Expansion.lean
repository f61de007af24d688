import TieredAllocator.Lib.Programs

/-!
# Library — actions expanded into programs

`Prog.expand` replaces each action of a program by a program of finer actions.  What the finer
programs do one after the other, the expansion does (`wp_expand`, `exec_expand`).
-/

namespace TieredAllocator.Lib.Prog

variable {A A' E σ σ' G β δ : Type} {R : A → Type} {R' : A' → Type}

/-- Each action `a` is carried out by `f a`. -/
def expand (f : (a : A) → Prog A' R' (R a)) : Prog A R β → Prog A' R' β
  | .done v => .done v
  | .act a k => f a >>= fun r => (k r).expand f

variable {f : (a : A) → Prog A' R' (R a)}

@[simp] theorem expand_done (v : β) : (.done v : Prog A R β).expand f = .done v := rfl

@[simp] theorem expand_act (a : A) (k : R a → Prog A R β) :
    (Prog.act a k).expand f = f a >>= fun r => (k r).expand f := rfl

/-- A condition that each of the finer programs starts from and ends with. -/
theorem wp_expand {ℛ : Rules A' R' G} {P : G → Prop}
    (hf : ∀ a g, P g → (f a).wp ℛ (fun g _ => P g) g) {p : Prog A R β} {g : G} (hg : P g) :
    (p.expand f).wp ℛ (fun g _ => P g) g := by
  induction p generalizing g with
  | done v => exact hg
  | act a k ih => exact wp_seq (hf a g hg) fun g' r hg' => ih r hg'

/-- If each finer program does alone what its action does, so does the expansion. -/
theorem exec_expand {run : E → σ → (a : A) → Option (R a × σ)}
    {run' : E → σ' → (a : A') → Option (R' a × σ')} {lift : σ → σ'} {e : E}
    (hf : ∀ a s, (f a).exec run' (fun _ => e) (lift s) = (run e s a).map fun r => (r.1, lift r.2))
    (p : Prog A R β) (s : σ) :
    (p.expand f).exec run' (fun _ => e) (lift s) =
      (p.exec run (fun _ => e) s).map fun r => (r.1, lift r.2) := by
  induction p generalizing s with
  | done v => rfl
  | act a k ih =>
      rw [expand_act, exec_bind, hf, exec]
      cases run e s a with
      | none => rfl
      | some r => exact ih r.1 r.2

end TieredAllocator.Lib.Prog
