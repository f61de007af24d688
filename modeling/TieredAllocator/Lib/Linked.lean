import Mathlib.Tactic

/-!
# Library — intrusive doubly linked lists

A list threaded through a store by two partial maps, `next` and `prev`.  `Linked next prev p h l`
says that the chain from the head `h` is `l`, that each node's `prev` names the node before it,
and that the first node's `prev` is `p`.

`Forward next h l` is the half of it that a walk along `next` reads.

The three edits are local: `Linked.congr` moves a list to maps that agree on its nodes,
`Linked.unlink` takes one node out, and `Linked.insert` puts one in between two halves.
-/

namespace TieredAllocator.Lib

variable {ι : Type*}

/-- The chain from `h` is `l`, mirrored by `prev`, and the first node's `prev` is `p`. -/
def Linked (next prev : ι → Option ι) : Option ι → Option ι → List ι → Prop
  | _, h, [] => h = none
  | p, h, x :: xs => h = some x ∧ prev x = p ∧ Linked next prev (some x) (next x) xs

/-- The chain from `h` is `l`; nothing is said of `prev`. -/
def Forward (next : ι → Option ι) : Option ι → List ι → Prop
  | h, [] => h = none
  | h, x :: xs => h = some x ∧ Forward next (next x) xs

theorem Forward.congr {next next' : ι → Option ι} {h : Option ι} {l : List ι}
    (hl : Forward next h l) (hn : ∀ y ∈ l, next' y = next y) : Forward next' h l := by
  induction l generalizing h with
  | nil => exact hl
  | cons x xs ih =>
      refine ⟨hl.1, ?_⟩
      rw [hn x List.mem_cons_self]
      exact ih hl.2 fun y hy => hn y (List.mem_cons_of_mem _ hy)

/-- The walk passes over `x` when the node before it does. -/
theorem Forward.skip {next next' : ι → Option ι} {h : Option ι} {l₁ l₂ : List ι} {p x : ι}
    (hl : Forward next h (l₁ ++ p :: x :: l₂)) (hp : next' p = next x)
    (hn : ∀ y ∈ l₁ ++ l₂, next' y = next y) : Forward next' h (l₁ ++ p :: l₂) := by
  induction l₁ generalizing h with
  | nil =>
      obtain ⟨hh, -, hl⟩ := hl
      refine ⟨hh, ?_⟩
      rw [hp]
      exact hl.congr hn
  | cons z l₁ ih =>
      refine ⟨hl.1, ?_⟩
      rw [hn z (by simp)]
      exact ih hl.2 fun y hy => hn y (List.mem_cons_of_mem _ hy)

/-- A new node `x` behind `p`. -/
theorem Forward.put {next next' : ι → Option ι} {h : Option ι} {l₁ l₂ : List ι} {p x : ι}
    (hl : Forward next h (l₁ ++ p :: l₂)) (hp : next' p = some x) (hx : next' x = next p)
    (hn : ∀ y ∈ l₁ ++ l₂, next' y = next y) : Forward next' h (l₁ ++ p :: x :: l₂) := by
  induction l₁ generalizing h with
  | nil =>
      refine ⟨hl.1, hp, ?_⟩
      rw [hx]
      exact hl.2.congr hn
  | cons z l₁ ih =>
      refine ⟨hl.1, ?_⟩
      rw [hn z (by simp)]
      exact ih hl.2 fun y hy => hn y (List.mem_cons_of_mem _ hy)

/-- Behind a node of a list stands the rest of it. -/
theorem Forward.rest {next : ι → Option ι} {h : Option ι} {l₁ l₂ : List ι} {x : ι}
    (hl : Forward next h (l₁ ++ x :: l₂)) : Forward next (next x) l₂ := by
  induction l₁ generalizing h with
  | nil => exact hl.2
  | cons z l₁ ih => exact ih hl.2

/-- One head leads along one list. -/
theorem Forward.unique {next : ι → Option ι} {h : Option ι} {l l' : List ι} (hl : Forward next h l)
    (hl' : Forward next h l') : l = l' := by
  induction l generalizing h l' with
  | nil =>
      cases l' with
      | nil => rfl
      | cons y ys => cases hl.symm.trans hl'.1
  | cons x xs ih =>
      cases l' with
      | nil => cases hl.1.symm.trans hl'
      | cons y ys =>
          obtain rfl : x = y := Option.some.inj (hl.1.symm.trans hl'.1)
          rw [ih hl.2 hl'.2]

/-- Two nodes of a list have different successors. -/
theorem Forward.next_ne {next : ι → Option ι} {h : Option ι} {l : List ι} {x y : ι}
    (hl : Forward next h l) (hx : x ∈ l) (hy : y ∈ l) (hne : x ≠ y) : next x ≠ next y := by
  obtain ⟨l₁, l₂, rfl⟩ := List.append_of_mem hx
  obtain ⟨r₁, r₂, heq⟩ := List.append_of_mem hy
  intro hnext
  obtain rfl : l₂ = r₂ := hl.rest.unique (hnext ▸ (heq ▸ hl).rest)
  exact hne (List.cons.inj (List.append_inj_right' heq rfl)).1

namespace Linked

variable {next prev next' prev' : ι → Option ι} {p h : Option ι} {l : List ι} {x y : ι}

theorem head_eq (hl : Linked next prev p h l) : h = l.head? := by
  cases l with
  | nil => exact hl
  | cons x xs => exact hl.1

theorem forward (hl : Linked next prev p h l) : Forward next h l := by
  induction l generalizing p h with
  | nil => exact hl
  | cons x xs ih => exact ⟨hl.1, ih hl.2.2⟩

/-- A list reads the links of its own nodes only. -/
theorem congr (hl : Linked next prev p h l) (hn : ∀ y ∈ l, next' y = next y)
    (hp : ∀ y ∈ l, prev' y = prev y) : Linked next' prev' p h l := by
  induction l generalizing p h with
  | nil => exact hl
  | cons x xs ih =>
      obtain ⟨hh, hpx, hxs⟩ := hl
      refine ⟨hh, (hp x (by simp)).trans hpx, ?_⟩
      rw [hn x (by simp)]
      exact ih hxs (fun y hy => hn y (by simp [hy])) (fun y hy => hp y (by simp [hy]))

/-- The node after a node of the list is in the list. -/
theorem next_mem (hl : Linked next prev p h l) (hx : x ∈ l) (hy : next x = some y) : y ∈ l := by
  induction l generalizing p h with
  | nil => simp at hx
  | cons z zs ih =>
      obtain ⟨-, -, hzs⟩ := hl
      rcases List.mem_cons.mp hx with rfl | hx
      · rw [hy] at hzs
        cases zs with
        | nil => exact absurd hzs (by simp [Linked])
        | cons w ws => obtain rfl : y = w := by simpa using hzs.1
                       simp
      · exact List.mem_cons_of_mem _ (ih hzs hx)

/-- The node before a node of the list is in the list, or is the list's own `p`. -/
theorem prev_mem (hl : Linked next prev p h l) (hx : x ∈ l) :
    prev x = p ∨ ∃ y ∈ l, prev x = some y := by
  induction l generalizing p h with
  | nil => simp at hx
  | cons z zs ih =>
      obtain ⟨-, hpz, hzs⟩ := hl
      rcases List.mem_cons.mp hx with rfl | hx
      · exact .inl hpz
      · rcases ih hzs hx with h | ⟨y, hy, h⟩
        · exact .inr ⟨z, by simp, h⟩
        · exact .inr ⟨y, by simp [hy], h⟩

/-- A node of the tail has its predecessor in the list. -/
theorem prev_of_mem_tail {xs : List ι} (hl : Linked next prev p h (x :: xs)) (hy : y ∈ xs) :
    ∃ z ∈ x :: xs, prev y = some z := by
  rcases hl.2.2.prev_mem hy with h | ⟨z, hz, h⟩
  · exact ⟨x, by simp, h⟩
  · exact ⟨z, by simp [hz], h⟩

/-- No node of a list without repetition is its own successor. -/
theorem next_ne_self (hl : Linked next prev p h l) (nd : l.Nodup) (hx : x ∈ l)
    (hy : next x = some y) : y ≠ x := by
  induction l generalizing p h with
  | nil => simp at hx
  | cons z zs ih =>
      obtain ⟨hz, ndzs⟩ := List.nodup_cons.mp nd
      rcases List.mem_cons.mp hx with rfl | hx
      · rintro rfl
        cases zs with
        | nil => exact absurd (hy.symm.trans hl.2.2) (by simp)
        | cons w ws =>
            obtain rfl : y = w := Option.some.inj (hy.symm.trans hl.2.2.1)
            exact hz (by simp)
      · exact ih hl.2.2 ndzs hx

/-- …nor its own predecessor. -/
theorem prev_ne_self (hl : Linked next prev p h l) (nd : l.Nodup) (hp : ∀ y, p = some y → y ∉ l)
    (hx : x ∈ l) (hy : prev x = some y) : y ≠ x := by
  induction l generalizing p h with
  | nil => simp at hx
  | cons z zs ih =>
      obtain ⟨hz, ndzs⟩ := List.nodup_cons.mp nd
      rcases List.mem_cons.mp hx with rfl | hx
      · rintro rfl
        exact hp y (hl.2.1.symm.trans hy) (by simp)
      · exact ih hl.2.2 ndzs (fun w hw => Option.some.inj hw ▸ hz) hx

/-- Two lists with one head are one list. -/
theorem unique {p' : Option ι} {l' : List ι} (hl : Linked next prev p h l)
    (hl' : Linked next prev p' h l') : l = l' := by
  induction l generalizing p p' h l' with
  | nil =>
      cases l' with
      | nil => rfl
      | cons y ys => obtain rfl := hl; exact absurd hl'.1 (by simp)
  | cons x xs ih =>
      cases l' with
      | nil => obtain rfl := hl'; exact absurd hl.1 (by simp)
      | cons y ys =>
          obtain rfl : x = y := by simpa using hl.1.symm.trans hl'.1
          rw [ih hl.2.2 hl'.2.2]

/-- **Unlinking `x`.**  Its predecessor takes its `next`, its successor takes its `prev`, and the
head moves when `x` was first; what `x` itself holds afterwards does not matter. -/
theorem unlink [DecidableEq ι] (hl : Linked next prev p h l) (hx : x ∈ l) (nd : l.Nodup)
    (hpl : ∀ y, p = some y → y ∉ l)
    (hn : ∀ y ∈ l, y ≠ x → next' y = if prev x = some y then next x else next y)
    (hp : ∀ y ∈ l, y ≠ x → prev' y = if next x = some y then prev x else prev y) :
    Linked next' prev' p (if prev x = p then next x else h) (l.erase x) := by
  induction l generalizing p h with
  | nil => simp at hx
  | cons y ys ih =>
      obtain ⟨hh, hpy, hys⟩ := hl
      obtain ⟨hy, ndys⟩ := List.nodup_cons.mp nd
      by_cases e : y = x
      · subst e
        rw [List.erase_cons_head, if_pos hpy]
        have keep : ∀ z ∈ ys, next' z = next z := fun z hz => by
          rw [hn z (by simp [hz]) (fun e => hy (e ▸ hz)), if_neg]
          rw [hpy]
          exact fun e => hpl z e (by simp [hz])
        cases ys with
        | nil => exact hys
        | cons z zs =>
            obtain ⟨hz, hpz, hzs⟩ := hys
            have hne : z ≠ y := fun e => hy (e ▸ by simp)
            refine ⟨hz, ?_, ?_⟩
            · rw [hp z (by simp) hne, if_pos hz, hpy]
            · rw [keep z (by simp)]
              refine hzs.congr (fun w hw => keep w (by simp [hw])) fun w hw => ?_
              rw [hp w (by simp [hw]) (fun e => hy (e ▸ by simp [hw])), if_neg]
              rw [hz]
              exact fun e => (List.nodup_cons.mp ndys).1 (Option.some.inj e ▸ hw)
      · have hxys : x ∈ ys := (List.mem_cons.mp hx).resolve_left (Ne.symm e)
        have hl : Linked next prev p h (y :: ys) := ⟨hh, hpy, hys⟩
        obtain ⟨z, hz, hxz⟩ := hl.prev_of_mem_tail hxys
        have hxp : prev x ≠ p := fun e => hpl z (e ▸ hxz) hz
        have hnx : next x ≠ some y := fun e => hy (hys.next_mem hxys e)
        rw [List.erase_cons_tail (by simpa using e), if_neg hxp]
        refine ⟨hh, ?_, ?_⟩
        · rw [hp y (by simp) e, if_neg hnx, hpy]
        · rw [hn y (by simp) e]
          exact ih hys hxys ndys (fun w hw => Option.some.inj hw ▸ hy)
            (fun w hw => hn w (by simp [hw])) (fun w hw => hp w (by simp [hw]))

/-- **Linking `x` in** between `l₁` and `l₂`: the four words around `x` change. -/
theorem insert [DecidableEq ι] {l₁ l₂ : List ι} (hl : Linked next prev p h (l₁ ++ l₂))
    (nd : (l₁ ++ l₂).Nodup) (hx : x ∉ l₁ ++ l₂)
    (hnx : next' x = l₂.head?) (hpx : prev' x = (l₁.getLast?).or p)
    (hn : ∀ y ∈ l₁ ++ l₂, next' y = if l₁.getLast? = some y then some x else next y)
    (hp : ∀ y ∈ l₁ ++ l₂, prev' y = if l₂.head? = some y then some x else prev y) :
    Linked next' prev' p (if l₁ = [] then some x else h) (l₁ ++ x :: l₂) := by
  induction l₁ generalizing p h with
  | nil =>
      simp only [List.nil_append] at *
      refine ⟨by simp, by simpa using hpx, ?_⟩
      cases l₂ with
      | nil => simpa [Linked] using hnx
      | cons y ys =>
          refine ⟨by simpa using hnx, by simpa using hp y (by simp), ?_⟩
          rw [show next' y = next y by simpa using hn y (by simp)]
          refine hl.2.2.congr (fun z hz => by simpa using hn z (by simp [hz])) fun z hz => ?_
          have hne : z ≠ y := fun e => (List.nodup_cons.mp nd).1 (e ▸ hz)
          simpa [Ne.symm hne] using hp z (by simp [hz])
  | cons z zs ih =>
      obtain ⟨hh, hpz, hzs⟩ := hl
      have hz₂ : l₂.head? ≠ some z := fun e =>
        (List.nodup_cons.mp nd).1 (List.mem_append_right _ (List.mem_of_mem_head? e))
      have hlast : ∀ y ∈ zs ++ l₂,
          ((z :: zs).getLast? = some y ↔ zs.getLast? = some y) := fun y hy => by
        cases zs with
        | nil =>
            have : z ≠ y := fun e => (List.nodup_cons.mp nd).1 (e ▸ hy)
            simpa using this
        | cons w ws => rw [List.getLast?_cons_cons]
      refine ⟨by simpa using hh, ?_, ?_⟩
      · rw [hp z (by simp), if_neg hz₂, hpz]
      · have hzn : next' z = if zs = [] then some x else next z := by
          rw [hn z (by simp)]
          cases zs with
          | nil => simp
          | cons w ws =>
              have : (z :: w :: ws).getLast? ≠ some z := fun e => by
                rw [List.getLast?_cons_cons] at e
                exact (List.nodup_cons.mp nd).1
                  (List.mem_append_left _ (List.mem_of_getLast? e))
              simp only [if_neg this, if_neg (List.cons_ne_nil w ws)]
        rw [hzn]
        refine ih hzs (List.nodup_cons.mp nd).2 (fun hm => hx (List.mem_cons_of_mem _ hm)) ?_
          (fun y hy => ?_) (fun y hy => hp y (List.mem_cons_of_mem _ hy))
        · rw [hpx]
          cases zs with
          | nil => simp
          | cons w ws =>
              rw [List.getLast?_cons_cons]
              obtain ⟨u, hu⟩ : ∃ u, (w :: ws).getLast? = some u :=
                ⟨_, List.getLast?_eq_some_getLast (List.cons_ne_nil w ws)⟩
              simp [hu]
        · rw [hn y (List.mem_cons_of_mem _ hy)]
          simp only [hlast y hy]

end Linked

end TieredAllocator.Lib
