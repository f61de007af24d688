import Mathlib.Tactic

/-!
# Library — unrolled lists

A singly linked list whose nodes each carry a list of further items.  `next` gives the successor
of a node and `packed` its items; both are functions, to be read off a memory or any other state.
`Chain next nil h l` says that the chain from `h` visits the nodes `l` and ends in `nil`, and
`items packed l` lists what the nodes hold, each node before its items.  The edits of such a list
are stated up to permutation: taking and adding a packed item at the head (`items_pop`,
`items_push`), taking the head (`Chain.pop`).

`Unrolled` is such a list without the state it is read off.  Adding and taking items at its head
are the operations of a stack (`Unrolled.pop_push`).
-/

namespace TieredAllocator.Lib

variable {α : Type*} {next next' : α → α} {packed packed' : α → List α} {nil h i : α}
  {l : List α}

/-- The nodes from `h` on are `l`. -/
def Chain (next : α → α) (nil : α) : α → List α → Prop
  | h, [] => h = nil
  | h, i :: l => h = i ∧ i ≠ nil ∧ Chain next nil (next i) l

/-- The nodes of `l` and what they carry. -/
def items (packed : α → List α) (l : List α) : List α := l.flatMap fun i => i :: packed i

/-- Follows the chain and collects the items; gives up after `fuel` nodes. -/
def decode [DecidableEq α] (next : α → α) (packed : α → List α) (nil : α) :
    (fuel : Nat) → α → Option (List α)
  | 0, _ => none
  | fuel + 1, h =>
      if h = nil then some []
      else (decode next packed nil fuel (next h)).map fun r => (h :: packed h) ++ r

@[simp] theorem items_nil : items packed [] = [] := rfl

@[simp] theorem items_cons : items packed (i :: l) = (i :: packed i) ++ items packed l := rfl

theorem mem_items_of_mem (hi : i ∈ l) : i ∈ items packed l :=
  List.mem_flatMap.mpr ⟨i, hi, by simp⟩

theorem sublist_items : l.Sublist (items packed l) := by
  induction l with
  | nil => exact List.Sublist.slnil
  | cons i l ih =>
      rw [items_cons, List.cons_append]
      exact (ih.trans (List.sublist_append_right _ _)).cons_cons i

theorem items_congr (hp : ∀ i ∈ l, packed' i = packed i) : items packed' l = items packed l := by
  induction l with
  | nil => rfl
  | cons i l ih =>
      rw [items_cons, items_cons, hp i (by simp), ih fun j hj => hp j (by simp [hj])]

namespace Chain

/-- A chain reads its own nodes only. -/
theorem congr (hc : Chain next nil h l) (hn : ∀ i ∈ l, next' i = next i) :
    Chain next' nil h l := by
  induction l generalizing h with
  | nil => exact hc
  | cons i l ih =>
      obtain ⟨rfl, hne, hc⟩ := hc
      refine ⟨rfl, hne, ?_⟩
      rw [hn h (by simp)]
      exact ih hc fun j hj => hn j (by simp [hj])

theorem eq_nil (hc : Chain next nil nil l) : l = [] := by
  cases l with
  | nil => rfl
  | cons i l => exact absurd hc.1.symm hc.2.1

/-- A head starts one chain at most. -/
theorem unique {l' : List α} (hc : Chain next nil h l) (hc' : Chain next nil h l') : l' = l := by
  induction l generalizing h l' with
  | nil => exact (hc ▸ hc').eq_nil
  | cons i l ih =>
      obtain ⟨rfl, hne, hc⟩ := hc
      cases l' with
      | nil => exact absurd hc' hne
      | cons j l' =>
          obtain ⟨rfl, -, hc'⟩ := hc'
          rw [ih hc hc']

theorem eq_cons (hc : Chain next nil h l) (hne : h ≠ nil) :
    ∃ l', l = h :: l' ∧ Chain next nil (next h) l' := by
  cases l with
  | nil => exact absurd hc hne
  | cons i l =>
      obtain ⟨rfl, -, hc⟩ := hc
      exact ⟨l, rfl, hc⟩

/-- Decoding a chain of fewer than `fuel` nodes returns its items. -/
theorem decode_eq [DecidableEq α] (hc : Chain next nil h l) {fuel : Nat} (hf : l.length < fuel) :
    decode next packed nil fuel h = some (items packed l) := by
  induction l generalizing h fuel with
  | nil =>
      obtain ⟨f, rfl⟩ : ∃ f, fuel = f + 1 := ⟨fuel - 1, by simp at hf; omega⟩
      obtain rfl := hc
      simp [decode]
  | cons i l ih =>
      obtain ⟨f, rfl⟩ : ∃ f, fuel = f + 1 := ⟨fuel - 1, by simp at hf; omega⟩
      obtain ⟨rfl, hne, hc⟩ := hc
      rw [decode, if_neg hne, ih hc (by simpa using hf)]
      rfl

end Chain

/-! ### Edits at the head -/

/-- The head loses its last packed item. -/
theorem items_pop {j : α} (hh : packed h = packed' h ++ [j])
    (hp : ∀ i ∈ l, packed' i = packed i) :
    (items packed (h :: l)).Perm (j :: items packed' (h :: l)) := by
  rw [items_cons, items_cons, items_congr hp, hh, ← List.cons_append, List.append_assoc]
  exact List.perm_middle

/-- The head gains a packed item. -/
theorem items_push {j : α} (hh : packed' h = packed h ++ [j])
    (hp : ∀ i ∈ l, packed' i = packed i) :
    (items packed' (h :: l)).Perm (j :: items packed (h :: l)) :=
  items_pop hh fun i hi => (hp i hi).symm

/-! ### The list as a stack -/

/-- The nodes, each with what it packs. -/
abbrev Unrolled (α : Type*) := List (α × List α)

namespace Unrolled

variable {u : Unrolled α} {j : α} {cap : Nat}

def nodes (u : Unrolled α) : List α := u.map Prod.fst

def head (nil : α) : Unrolled α → α
  | [] => nil
  | n :: _ => n.1

/-- Packs `j` into the head if there is room, and makes it a new head otherwise. -/
def push (cap : Nat) (j : α) : Unrolled α → Unrolled α
  | [] => [(j, [])]
  | (i, js) :: u => if js.length < cap then (i, js ++ [j]) :: u else (j, []) :: (i, js) :: u

/-- Takes the last item packed into the head, or the head if it packs none. -/
def pop : Unrolled α → Option (α × Unrolled α)
  | [] => none
  | (i, js) :: u =>
      match js.getLast? with
      | some j => some (j, (i, js.dropLast) :: u)
      | none => some (i, u)

/-- What was added last is taken first. -/
@[simp] theorem pop_push : (push cap j u).pop = some (j, u) := by
  cases u with
  | nil => rfl
  | cons n u =>
      obtain ⟨i, js⟩ := n
      by_cases hroom : js.length < cap
      · simp [push, if_pos hroom, pop]
      · simp [push, if_neg hroom, pop]

/-- The added item becomes a node at most. -/
theorem nodes_push (cap : Nat) (j : α) (u : Unrolled α) :
    (push cap j u).nodes = u.nodes ∨ (push cap j u).nodes = j :: u.nodes := by
  cases u with
  | nil => exact .inr rfl
  | cons n u =>
      obtain ⟨i, js⟩ := n
      by_cases hroom : js.length < cap
      · exact .inl (by rw [push, if_pos hroom]; rfl)
      · exact .inr (by rw [push, if_neg hroom]; rfl)

end Unrolled

end TieredAllocator.Lib
