import Mathlib.Tactic

/-!
# Library — tilings

Blocks laid end to end.  A block is named by the address it starts at; `len` says how long each one
is, and `Tiles len a bs e` says that the blocks `bs`, in this order, cover the addresses from `a` up
to `e` with no gap and no overlap.

Two edits are local: `Tiles.merge` joins two neighbours, and `Tiles.split` cuts one block in two.
-/

namespace TieredAllocator.Lib

/-- `bs` are laid end to end from `a` up to `e`, each `b` of them `len b` long. -/
def Tiles (len : Nat → Nat) : Nat → List Nat → Nat → Prop
  | a, [], e => a = e
  | a, b :: bs, e => b = a ∧ Tiles len (b + len b) bs e

namespace Tiles

variable {len len' : Nat → Nat} {a b c e : Nat} {l l₁ l₂ : List Nat}

theorem append : Tiles len a (l₁ ++ l₂) e ↔ ∃ c, Tiles len a l₁ c ∧ Tiles len c l₂ e := by
  induction l₁ generalizing a with
  | nil => simp [Tiles]
  | cons b l₁ ih => simp [Tiles, ih, and_assoc]

/-- A tiling before and after one of its blocks. -/
theorem around :
    Tiles len a (l₁ ++ b :: l₂) e ↔ Tiles len a l₁ b ∧ Tiles len (b + len b) l₂ e := by
  rw [append]
  constructor
  · rintro ⟨c, h₁, rfl, h₂⟩
    exact ⟨h₁, h₂⟩
  · rintro ⟨h₁, h₂⟩
    exact ⟨b, h₁, rfl, h₂⟩

theorem congr (h : Tiles len a l e) (hl : ∀ x ∈ l, len' x = len x) : Tiles len' a l e := by
  induction l generalizing a with
  | nil => exact h
  | cons b l ih =>
      refine ⟨h.1, ?_⟩
      rw [hl b List.mem_cons_self]
      exact ih h.2 fun x hx => hl x (List.mem_cons_of_mem _ hx)

theorem le (h : Tiles len a l e) : a ≤ e := by
  induction l generalizing a with
  | nil => exact h.le
  | cons b l ih =>
      obtain ⟨rfl, h⟩ := h
      have := ih h
      omega

/-- A block lies inside the tiled range. -/
theorem mem (h : Tiles len a l e) (hb : b ∈ l) : a ≤ b ∧ b + len b ≤ e := by
  obtain ⟨l₁, l₂, rfl⟩ := List.append_of_mem hb
  obtain ⟨h₁, h₂⟩ := around.mp h
  exact ⟨h₁.le, h₂.le⟩

/-- Each address of the range lies in a block. -/
theorem cover {x : Nat} (h : Tiles len a l e) (h₁ : a ≤ x) (h₂ : x < e) :
    ∃ b ∈ l, b ≤ x ∧ x < b + len b := by
  induction l generalizing a with
  | nil =>
      have : a = e := h
      omega
  | cons b l ih =>
      obtain ⟨rfl, h⟩ := h
      by_cases hx : x < b + len b
      · exact ⟨b, List.mem_cons_self, h₁, hx⟩
      · obtain ⟨c, hc, hin⟩ := ih h (not_lt.mp hx)
        exact ⟨c, List.mem_cons_of_mem _ hc, hin⟩

/-- The blocks come in the order of their addresses. -/
theorem sorted (h : Tiles len a l e) : l.Pairwise fun b c => b + len b ≤ c := by
  induction l generalizing a with
  | nil => exact .nil
  | cons b l ih => exact .cons (fun c hc => (h.2.mem hc).1) (ih h.2)

theorem nodup (h : Tiles len a l e) (hpos : ∀ x ∈ l, 0 < len x) : l.Nodup := by
  refine List.Pairwise.imp_of_mem ?_ h.sorted
  intro b c hb _ hbc hne
  have := hpos b hb
  omega

/-- Two blocks do not overlap. -/
theorem apart (h : Tiles len a l e) (hb : b ∈ l) (hc : c ∈ l) (hne : b ≠ c) :
    b + len b ≤ c ∨ c + len c ≤ b := by
  obtain ⟨l₁, l₂, rfl⟩ := List.append_of_mem hb
  obtain ⟨h₁, h₂⟩ := around.mp h
  rcases List.mem_append.mp hc with hc | hc
  · exact .inr (h₁.mem hc).2
  · rcases List.mem_cons.mp hc with rfl | hc
    · exact absurd rfl hne
    · exact .inl (h₂.mem hc).1

/-- The next block starts where this one ends. -/
theorem next (h : Tiles len a (l₁ ++ b :: c :: l₂) e) : c = b + len b :=
  (around.mp h).2.1

theorem sum_eq (h : Tiles len a l e) : a + (l.map len).sum = e := by
  induction l generalizing a with
  | nil => exact h
  | cons b l ih =>
      obtain ⟨rfl, h⟩ := h
      rw [List.map_cons, List.sum_cons, ← Nat.add_assoc]
      exact ih h

/-- Distinct blocks do not fill more than the range. -/
theorem sum_le {l' : List Nat} (h : Tiles len a l e) (hnd : l'.Nodup) (hl : l' ⊆ l) :
    a + (l'.map len).sum ≤ e := by
  obtain ⟨l'', hperm, hsub⟩ := hnd.subperm hl
  have hle := (hsub.map len).sum_le_sum fun _ _ => Nat.zero_le _
  have := h.sum_eq
  have := (hperm.map len).sum_eq
  omega

/-- Where a block ends, the tiling ends or the next block starts. -/
theorem next_mem (h : Tiles len a l e) (hb : b ∈ l) : b + len b = e ∨ b + len b ∈ l := by
  obtain ⟨l₁, l₂, rfl⟩ := List.append_of_mem hb
  obtain ⟨-, h₂⟩ := around.mp h
  cases l₂ with
  | nil => exact .inl h₂
  | cons c l₂ =>
      obtain rfl := h₂.1
      exact .inr (by simp)

/-- Where a block starts, the tiling starts or another block ends. -/
theorem prev_mem (h : Tiles len a l e) (hb : b ∈ l) : b = a ∨ ∃ c ∈ l, c + len c = b := by
  obtain ⟨l₁, l₂, rfl⟩ := List.append_of_mem hb
  obtain ⟨h₁, -⟩ := around.mp h
  rcases List.eq_nil_or_concat l₁ with rfl | ⟨l₁, c, rfl⟩
  · exact .inl h₁.symm
  · rw [List.concat_eq_append] at h₁ ⊢
    exact .inr ⟨c, by simp, (around.mp h₁).2⟩

/-- A block and the one that starts where it ends stand side by side. -/
theorem side_by_side (h : Tiles len a l e) (hpos : ∀ x ∈ l, 0 < len x) (hb : b ∈ l)
    (hc : b + len b ∈ l) : ∃ l₁ l₂, l = l₁ ++ b :: (b + len b) :: l₂ := by
  obtain ⟨l₁, l₂, rfl⟩ := List.append_of_mem hb
  obtain ⟨-, h₂⟩ := around.mp h
  cases l₂ with
  | nil =>
      have h₁ := (h.mem hc).2
      have h₂ : b + len b = e := h₂
      have h₃ := hpos _ hc
      omega
  | cons c l₂ =>
      obtain rfl := h₂.1
      exact ⟨l₁, l₂, rfl⟩

theorem merge (h : Tiles len a (l₁ ++ b :: c :: l₂) e) (hb : len' b = len b + len c)
    (hl : ∀ x ∈ l₁ ++ l₂, len' x = len x) : Tiles len' a (l₁ ++ b :: l₂) e := by
  obtain ⟨h₁, rfl, h₂⟩ := around.mp h
  refine around.mpr ⟨h₁.congr fun x hx => hl x (List.mem_append_left _ hx), ?_⟩
  rw [hb, ← Nat.add_assoc]
  exact h₂.congr fun x hx => hl x (List.mem_append_right _ hx)

theorem split (h : Tiles len a (l₁ ++ b :: l₂) e) (hc : c = b + len' b)
    (hb : len' b + len' c = len b) (hl : ∀ x ∈ l₁ ++ l₂, len' x = len x) :
    Tiles len' a (l₁ ++ b :: c :: l₂) e := by
  obtain ⟨h₁, h₂⟩ := around.mp h
  refine around.mpr ⟨h₁.congr fun x hx => hl x (List.mem_append_left _ hx), hc, ?_⟩
  rw [show c + len' c = b + len b by omega]
  exact h₂.congr fun x hx => hl x (List.mem_append_right _ hx)

/-- A block that ends where the tiling ends is the last one. -/
theorem last (h : Tiles len a (l₁ ++ b :: l₂) e) (hpos : ∀ x ∈ l₂, 0 < len x)
    (hb : b + len b = e) : l₂ = [] := by
  cases l₂ with
  | nil => rfl
  | cons c l₂ =>
      obtain rfl := h.next
      have hc := h.mem (b := b + len b) (by simp)
      have := hpos (b + len b) List.mem_cons_self
      omega

theorem snoc : Tiles len a (l ++ [b]) e ↔ Tiles len a l b ∧ b + len b = e :=
  around

end Tiles

end TieredAllocator.Lib
